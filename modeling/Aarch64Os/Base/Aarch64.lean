import Mathlib

/-!
# A machine for AArch64 assembly

Registers, memory by aligned double words, and the instructions that system code is written with:
exceptions are taken to EL1 and left by `eret`. What the architecture leaves undefined, and faults,
end a run. Code is a function from addresses, with all labels resolved.
-/

namespace Base.Aarch64
set_option autoImplicit false

abbrev Word := BitVec 64

/-- A word for each aligned address. -/
abbrev Mem := Word → Word

inductive SysReg
  | sp_el0 | elr_el1 | spsr_el1 | esr_el1 | vbar_el1 | ttbr0_el1 | ttbr1_el1 | tcr_el1 | mair_el1 | sctlr_el1 | mpidr_el1
  deriving DecidableEq

instance registers : NeZero 31 := ⟨by decide⟩

/-- Operands. Number 31 is `sp` in some places and `xzr` in others. -/
inductive Reg
  | x (n : Fin 31)
  | sp
  | xzr
  deriving DecidableEq

/-- What a core has; `pstate` as `spsr_el1` shows it. -/
structure Regs where
  x : Fin 31 → Word
  sp_el1 : Word
  sys : SysReg → Word
  pstate : Word
  pc : Word

structure State extends Regs where
  mem : Mem

/-- Instructions that go on to the next one. -/
inductive Op
  | mov (rd rn : Reg)
  | movImm (rd : Reg) (imm : Word)
  | mrs (rd : Reg) (s : SysReg)
  | msr (s : SysReg) (rn : Reg)
  | addImm (rd rn : Reg) (imm : Word)
  | subImm (rd rn : Reg) (imm : Word)
  | subImm32 (rd rn : Reg) (imm : BitVec 32)
  | andImm (rd rn : Reg) (imm : Word)
  | orrImm (rd rn : Reg) (imm : Word)
  | add (rd rn rm : Reg)
  | orr (rd rn rm : Reg)
  | mul (rd rn rm : Reg)
  | lsr (rd rn : Reg) (shift : Nat)
  | cmp (rn rm : Reg)
  | ldp (rt rt2 base : Reg) (off : Word)
  | stp (rt rt2 base : Reg) (off : Word)
  | ldr (rt base : Reg) (off : Word)
  | str (rt base : Reg) (off : Word)
  | strPost (rt base : Reg) (off : Word)
  | strLsl3 (rt base index : Reg)
  | isb

/-- Instructions, with targets of branches as addresses. -/
inductive Instr
  | op (o : Op)
  | b (target : Word)
  | bl (target : Word)
  | bls (target : Word)
  | cbz (rt : Reg) (target : Word)
  | cbz32 (rt : Reg) (target : Word)
  | br (rn : Reg)
  | ret
  | eret
  | svc (imm : BitVec 16)

/-- The instruction at an address. -/
abbrev Code := Word → Option Instr

/-- `PSTATE` bits: the mode, `SPSel` in it, and the mask of interrupts. -/
def EL0t : BitVec 4 := 0
def EL1h : BitVec 4 := 5

def Regs.mode (r : Regs) : BitVec 4 := r.pstate.extractLsb' 0 4

theorem Regs.mode_congr {r r' : Regs} (same : r.pstate = r'.pstate) : r.mode = r'.mode := congrArg (fun p : Word => p.extractLsb' 0 4) same

/-- Interrupts are masked by `PSTATE.I`. -/
def Regs.masked (r : Regs) : Bool := r.pstate.getLsbD 7

/-- `sp`, by `SPSel`. -/
def Regs.sp (r : Regs) : Word := if r.mode = EL1h then r.sp_el1 else r.sys .sp_el0

namespace State

def setX (s : State) (n : Fin 31) (v : Word) : State := { s with x := Function.update s.x n v }

def setSys (s : State) (r : SysReg) (v : Word) : State := { s with sys := Function.update s.sys r v }

def setSp (s : State) (v : Word) : State := if s.mode = EL1h then { s with sp_el1 := v } else s.setSys .sp_el0 v

def get (s : State) : Reg → Word
  | .x n => s.x n
  | .sp => s.sp
  | .xzr => 0

def set (s : State) : Reg → Word → State
  | .x n, v => s.setX n v
  | .sp, v => s.setSp v
  | .xzr, _ => s

/-- The flags of `a - b`, in the bits N, Z, C, V. -/
def flags (a b : Word) : BitVec 4 :=
  BitVec.ofBool (a - b).msb ++ BitVec.ofBool (decide (a = b)) ++ BitVec.ofBool (decide (b.toNat ≤ a.toNat)) ++
    BitVec.ofBool (a.msb != b.msb && (a - b).msb != a.msb)

def setFlags (s : State) (nzcv : BitVec 4) : State :=
  { s with pstate := s.pstate.extractLsb' 32 32 ++ nzcv ++ s.pstate.extractLsb' 0 28 }

/-- The condition `ls` of a branch. -/
def ls (s : State) : Bool := !s.pstate.getLsbD 29 || s.pstate.getLsbD 30

/-- The address of an access, which is aligned, as is `sp` at each access through it. -/
def addr (s : State) (base : Reg) (off : Word) : Option Word :=
  let a := s.get base + off
  if (base = .sp → s.sp.toNat % 16 = 0) ∧ a.toNat % 8 = 0 then some a else none

def store (s : State) (a v : Word) : State := { s with mem := Function.update s.mem a v }

/-- To the next instruction. -/
def next (s : State) : State := { s with pc := s.pc + 4 }

end State

section Places
variable (s : State)

@[simp] theorem State.next_pc : s.next.pc = s.pc + 4 := rfl

theorem State.next_mode : s.next.mode = s.mode := rfl

@[simp] theorem State.store_pc (a v : Word) : (s.store a v).pc = s.pc := rfl

@[simp] theorem State.setSys_pc (r : SysReg) (v : Word) : (s.setSys r v).pc = s.pc := rfl

@[simp] theorem State.setFlags_pc (nzcv : BitVec 4) : (s.setFlags nzcv).pc = s.pc := rfl

@[simp] theorem State.set_pc (rd : Reg) (v : Word) : (s.set rd v).pc = s.pc := by
  cases rd with
  | x n => rfl
  | xzr => rfl
  | sp =>
    show (s.setSp v).pc = s.pc
    unfold State.setSp
    split
    · rfl
    · rfl

/-- At EL1 `sp` is its own stack pointer. -/
theorem State.get_sp {s : State} (mode : s.mode = EL1h) : s.get .sp = s.sp_el1 := if_pos mode

theorem State.set_sp {s : State} (mode : s.mode = EL1h) (v : Word) : s.set .sp v = { s with sp_el1 := v } := if_pos mode

end Places

/-- One instruction that goes on. System registers are those of EL1. -/
def Op.exec (o : Op) (s : State) : Option State :=
  match o with
  | mov rd rn => some (s.set rd (s.get rn)).next
  | movImm rd imm => some (s.set rd imm).next
  | mrs rd r => if s.mode = EL1h then some (s.set rd (s.sys r)).next else none
  | msr r rn => if s.mode = EL1h then some (s.setSys r (s.get rn)).next else none
  | addImm rd rn imm => some (s.set rd (s.get rn + imm)).next
  | subImm rd rn imm => some (s.set rd (s.get rn - imm)).next
  | subImm32 rd rn imm => some (s.set rd (((s.get rn).setWidth 32 - imm).setWidth 64)).next
  | andImm rd rn imm => some (s.set rd (s.get rn &&& imm)).next
  | orrImm rd rn imm => some (s.set rd (s.get rn ||| imm)).next
  | add rd rn rm => some (s.set rd (s.get rn + s.get rm)).next
  | orr rd rn rm => some (s.set rd (s.get rn ||| s.get rm)).next
  | mul rd rn rm => some (s.set rd (s.get rn * s.get rm)).next
  | lsr rd rn shift => some (s.set rd (s.get rn >>> shift)).next
  | cmp rn rm => some (s.setFlags (State.flags (s.get rn) (s.get rm))).next
  | ldp rt rt2 base off => (s.addr base off).map fun a => ((s.set rt (s.mem a)).set rt2 (s.mem (a + 8))).next
  | stp rt rt2 base off => (s.addr base off).map fun a => ((s.store a (s.get rt)).store (a + 8) (s.get rt2)).next
  | ldr rt base off => (s.addr base off).map fun a => (s.set rt (s.mem a)).next
  | str rt base off => (s.addr base off).map fun a => (s.store a (s.get rt)).next
  | strPost rt base off => (s.addr base 0).map fun a => ((s.store a (s.get rt)).set base (a + off)).next
  | strLsl3 rt base index => (s.addr base (s.get index <<< 3)).map fun a => (s.store a (s.get rt)).next
  | isb => some s.next

/-- An exception is taken to EL1, to a place behind `vbar_el1`, and interrupts are masked. -/
def State.take (s : State) (place back : Word) : State :=
  let table : Word := if s.mode = EL1h then 0x200 else 0x400
  { s with
    sys := Function.update (Function.update s.sys .elr_el1 back) .spsr_el1 s.pstate
    pstate := (s.pstate &&& 0xf0000000#64) ||| 0x3c5#64
    pc := s.sys .vbar_el1 + table + place }

section Take
variable (s : State) (place back : Word)

@[simp] theorem State.take_elr : (s.take place back).sys .elr_el1 = back := by
  show Function.update (Function.update s.sys .elr_el1 back) .spsr_el1 s.pstate .elr_el1 = back
  rw [Function.update_of_ne (by decide), Function.update_self]

@[simp] theorem State.take_spsr : (s.take place back).sys .spsr_el1 = s.pstate := by
  show Function.update (Function.update s.sys .elr_el1 back) .spsr_el1 s.pstate .spsr_el1 = s.pstate
  rw [Function.update_self]

theorem State.take_sys {r : SysReg} (ne : r ≠ .elr_el1) (ne' : r ≠ .spsr_el1) : (s.take place back).sys r = s.sys r := by
  show Function.update (Function.update s.sys .elr_el1 back) .spsr_el1 s.pstate r = s.sys r
  rw [Function.update_of_ne ne', Function.update_of_ne ne]

/-- An exception goes on at EL1, and no interrupt comes in. -/
theorem State.take_mode : (s.take place back).mode = EL1h ∧ (s.take place back).masked = true := by
  have bits : ∀ i < 4, (0xf0000000#64).getLsbD i = false ∧ (0x3c5#64).getLsbD i = EL1h.getLsbD i := by decide
  constructor
  · apply BitVec.eq_of_getLsbD_eq
    intro i lt
    show (((s.pstate &&& 0xf0000000#64) ||| 0x3c5#64).extractLsb' 0 4).getLsbD i = _
    obtain ⟨flag, low⟩ := bits i lt
    rw [BitVec.getLsbD_extractLsb', Nat.zero_add, BitVec.getLsbD_or, BitVec.getLsbD_and, flag, low, decide_eq_true lt]
    simp
  · show ((s.pstate &&& 0xf0000000#64) ||| 0x3c5#64).getLsbD 7 = true
    rw [BitVec.getLsbD_or, show (0x3c5#64).getLsbD 7 = true by decide, Bool.or_true]

end Take

/-- `svc`, with its syndrome. -/
def State.svc (s : State) (imm : BitVec 16) : State :=
  (s.setSys .esr_el1 (0x56000000#64 ||| imm.setWidth 64)).take 0 (s.pc + 4)

/-- An interrupt between two instructions. -/
def State.irq (s : State) : State := s.take 0x80 s.pc

/-- Back from an exception, to EL0 or within EL1. -/
def State.eret (s : State) : Option State :=
  let back := { s with pstate := s.sys .spsr_el1, pc := s.sys .elr_el1 }
  if s.mode = EL1h ∧ (back.mode = EL0t ∨ back.mode = EL1h) then some back else none

def Instr.exec (i : Instr) (s : State) : Option State :=
  match i with
  | op o => o.exec s
  | b target => some { s with pc := target }
  | bl target => some { s.setX 30 (s.pc + 4) with pc := target }
  | bls target => some (if s.ls then { s with pc := target } else s.next)
  | cbz rt target => some (if s.get rt = 0 then { s with pc := target } else s.next)
  | cbz32 rt target => some (if (s.get rt).setWidth 32 = 0#32 then { s with pc := target } else s.next)
  | br rn => some { s with pc := s.get rn }
  | ret => some { s with pc := s.x 30 }
  | eret => s.eret
  | svc imm => some (s.svc imm)

/-- One instruction. -/
def step (code : Code) (s : State) : Option State := (code s.pc).bind fun i => i.exec s

/-- So many instructions. -/
def run (code : Code) : Nat → State → Option State
  | 0, s => some s
  | n + 1, s => (step code s).bind (run code n)

/-- The instructions of a list are in memory from `a` on. -/
def Code.At (code : Code) (a : Word) (is : List Instr) : Prop := ∀ k (h : k < is.length), code (a + BitVec.ofNat 64 (4 * k)) = some is[k]

/-- Straight-line code. -/
def Op.runs : List Op → State → Option State
  | [], s => some s
  | o :: os, s => (o.exec s).bind (Op.runs os)

/-- The place of an instruction behind another. -/
theorem place_succ (a : Word) (n : Nat) : a + 4 + BitVec.ofNat 64 (4 * n) = a + BitVec.ofNat 64 (4 * (n + 1)) := by
  rw [BitVec.add_assoc, show (4 : Word) = BitVec.ofNat 64 4 from rfl, ← BitVec.ofNat_add, Nat.mul_add, Nat.add_comm]

section Runs
variable {code : Code} {s t u : State} {m n : Nat} {a : Word} {is js : List Instr} {os ps : List Op}

theorem run_add (first : run code m s = some t) (second : run code n t = some u) : run code (m + n) s = some u := by
  induction m generalizing s with
  | zero =>
    cases first
    rwa [Nat.zero_add]
  | succ m ih =>
    obtain ⟨v, here, rest⟩ := Option.bind_eq_some_iff.1 first
    have both := ih rest
    rw [Nat.add_right_comm, run, here]
    exact both

theorem run_succ (here : step code s = some t) (rest : run code n t = some u) : run code (n + 1) s = some u := by
  rw [run, here]
  exact rest

theorem Op.runs_append (first : Op.runs os s = some t) (second : Op.runs ps t = some u) : Op.runs (os ++ ps) s = some u := by
  induction os generalizing s with
  | nil =>
    cases first
    exact second
  | cons o os ih =>
    obtain ⟨v, here, rest⟩ := Option.bind_eq_some_iff.1 first
    rw [List.cons_append, Op.runs, here]
    exact ih rest

theorem Op.runs_cons {o : Op} (here : o.exec s = some t) (rest : Op.runs os t = some u) : Op.runs (o :: os) s = some u := by
  rw [Op.runs, here]
  exact rest

theorem Code.At.left (h : code.At a (is ++ js)) : code.At a is := by
  intro k lt
  have inside : k < (is ++ js).length := by
    rw [List.length_append]
    omega
  rw [h k inside, List.getElem_append_left lt]

theorem Code.At.right (h : code.At a (is ++ js)) : code.At (a + BitVec.ofNat 64 (4 * is.length)) js := by
  intro k lt
  have inside : is.length + k < (is ++ js).length := by
    rw [List.length_append]
    omega
  have place : a + BitVec.ofNat 64 (4 * is.length) + BitVec.ofNat 64 (4 * k) = a + BitVec.ofNat 64 (4 * (is.length + k)) := by
    rw [BitVec.add_assoc, ← BitVec.ofNat_add, Nat.mul_add]
  rw [place, h _ inside, List.getElem_append_right (Nat.le_add_right ..)]
  simp only [Nat.add_sub_cancel_left]

theorem Code.At.head {i : Instr} (h : code.At a (i :: is)) : code a = some i := by
  have first := h 0 (Nat.zero_lt_succ _)
  simpa using first

theorem Code.At.tail {i : Instr} (h : code.At a (i :: is)) : code.At (a + 4) is := (show code.At a ([i] ++ is) from h).right

/-- An instruction that goes on leaves the place behind itself. -/
theorem Op.exec_pc {o : Op} (h : o.exec s = some t) : t.pc = s.pc + 4 := by
  cases o with
  | ldp | stp | ldr | str | strPost | strLsl3 =>
    obtain ⟨a, -, rfl⟩ := Option.map_eq_some_iff.1 h
    simp
  | mrs | msr =>
    obtain ⟨-, eq⟩ := Option.ite_none_right_eq_some.1 h
    cases eq
    simp
  | _ =>
    cases h
    simp

theorem Op.runs_pc (h : Op.runs os s = some t) : t.pc = s.pc + BitVec.ofNat 64 (4 * os.length) := by
  induction os generalizing s with
  | nil =>
    cases h
    exact (BitVec.add_zero _).symm
  | cons o os ih =>
    obtain ⟨u, here, rest⟩ := Option.bind_eq_some_iff.1 h
    rw [ih rest, Op.exec_pc here, place_succ, List.length_cons]

/-- A part of a list of instructions. -/
theorem Code.At.part (h : code.At a is) (i : Nat) (js : List Instr) (eq : (is.drop i).take js.length = js) : code.At (a + BitVec.ofNat 64 (4 * i)) js := by
  intro k lt
  have there : (is.drop i)[k]? = some js[k] := by
    rw [← List.getElem?_take_of_lt lt, eq, List.getElem?_eq_getElem lt]
  rw [List.getElem?_drop] at there
  obtain ⟨lt', same⟩ := List.getElem?_eq_some_iff.1 there
  have place : a + BitVec.ofNat 64 (4 * i) + BitVec.ofNat 64 (4 * k) = a + BitVec.ofNat 64 (4 * (i + k)) := by
    rw [BitVec.add_assoc, ← BitVec.ofNat_add, Nat.mul_add]
  rw [place, h _ lt', same]

/-- **Straight-line code in memory** does what its instructions do one after another. -/
theorem run_ops (at_ : code.At s.pc (os.map .op)) (h : Op.runs os s = some t) : run code os.length s = some t := by
  induction os generalizing s with
  | nil => exact h
  | cons o os ih =>
    obtain ⟨u, here, rest⟩ := Option.bind_eq_some_iff.1 h
    have fetched : step code s = some u := by
      rw [step, at_.head]
      exact here
    refine run_succ fetched (ih ?_ rest)
    rw [Op.exec_pc here]
    exact at_.tail

end Runs

/-- Code from lists of instructions, each with its place. -/
def Code.load : List (Nat × List Instr) → Code
  | [], _ => none
  | (a, is) :: rest, b => if a ≤ b.toNat ∧ b.toNat < a + 4 * is.length ∧ (b.toNat - a) % 4 = 0 then is[(b.toNat - a) / 4]? else Code.load rest b

/-- Lists that lie apart are where they should be. -/
theorem Code.load_at {pieces : List (Nat × List Instr)} (apart : pieces.Pairwise fun p q => p.1 + 4 * p.2.length ≤ q.1)
    (small : ∀ p ∈ pieces, p.1 + 4 * p.2.length ≤ 2 ^ 64) {a : Nat} {is : List Instr} (mem : (a, is) ∈ pieces) :
    (Code.load pieces).At (BitVec.ofNat 64 a) is := by
  induction pieces with
  | nil => exact absurd mem List.not_mem_nil
  | cons p pieces ih =>
    obtain ⟨b, js⟩ := p
    obtain ⟨first, rest⟩ := List.pairwise_cons.1 apart
    have top := small _ mem
    intro k lt
    have place : (BitVec.ofNat 64 a + BitVec.ofNat 64 (4 * k)).toNat = a + 4 * k := by
      rw [← BitVec.ofNat_add, BitVec.toNat_ofNat]
      have le : a + 4 * is.length ≤ 2 ^ 64 := top
      omega
    cases List.mem_cons.1 mem with
    | inl eq =>
      cases eq
      have inside : a ≤ a + 4 * k ∧ a + 4 * k < a + 4 * is.length ∧ (a + 4 * k - a) % 4 = 0 := by omega
      rw [Code.load, place, if_pos inside, show (a + 4 * k - a) / 4 = k by omega, List.getElem?_eq_getElem lt]
    | inr mem =>
      have behind : b + 4 * js.length ≤ a := first _ mem
      have outside : ¬(b ≤ a + 4 * k ∧ a + 4 * k < b + 4 * js.length ∧ (a + 4 * k - b) % 4 = 0) := by omega
      rw [Code.load, place, if_neg outside]
      exact ih rest (fun p mem => small p (List.mem_cons_of_mem _ mem)) mem k lt

end Base.Aarch64
