import Aarch64Os.Base.FillLoops
import Aarch64Os.Kernel.Mm.KernelPages

/-!
# From reset to `main` (`kernel/boot.S`)

The first core builds two trees of tables, one that maps physical memory to itself and one for the
kernel, by loops over entries; then it and all others turn the MMU on and go on at virtual addresses.
Constants of the linker are parameters.
-/

namespace Aarch64Os.Kernel.Boot
set_option autoImplicit false
open Base Base.Aarch64 Words

/-- What the linker has put where. -/
structure Image where
  kend : Nat
  l1kpgt : PageNo
  l2kpgt0 : PageNo
  l2kpgt1 : PageNo
  l1upgt : PageNo
  l2upgt : PageNo
  main : Word
  vectortable : Word
  bss_start : Nat
  bss_end : Nat
  kstack : Word

/-- The address of a page, as `adrp` has it. -/
def address (page : PageNo) : Word := BitVec.ofNat 64 (page * PAGESIZE)

/-- An instruction of code at `a`. -/
def label (a : Word) (i : Nat) : Word := a + BitVec.ofNat 64 (4 * i)

namespace Image

/-- Labels, with `_start` at `KERNBASE`. -/
def clearbss : Word := label (BitVec.ofNat 64 KERNBASE) 92
def primaryEntry : Word := label (BitVec.ofNat 64 KERNBASE) 112

/-- `__bss_size`, in words. -/
def bssSize (b : Image) : Nat := (b.bss_end - b.bss_start) >>> 3

/-- `V2P(kend)-1`. -/
def last (b : Image) : Word := BitVec.ofNat 64 (V2P b.kend - 1)

/-- `TCR_T0SZ(25) | TCR_T1SZ(25) | TCR_TG0(0) | TCR_TG1(2) | TCR_IPS(0)`. -/
def tcr : Word := 25 ||| 25 <<< 16 ||| 0 <<< 14 ||| 2 <<< 30 ||| 0 <<< 32

/-- `(AI_DEVICE_nGnRnE << (8 * AI_DEVICE_nGnRnE_IDX)) | (AI_NORMAL_NC << (8 * AI_NORMAL_NC_IDX))`. -/
def mair : Word := 0 <<< (8 * 0) ||| 0x44 <<< (8 * 1)

/-- Setup of `l2upgt`, before its loop. -/
def l2upgtOps (b : Image) : List Op :=
  [.movImm (.x 0) (address b.l2upgt),
   .movImm (.x 1) 0x40000000,
   .movImm (.x 2) b.last,
   .lsr (.x 3) (.x 1) 21,
   .andImm (.x 3) (.x 3) 0x1ff,
   .lsr (.x 4) (.x 2) 21,
   .andImm (.x 4) (.x 4) 0x1ff,
   .movImm (.x 5) (PTE_AF ||| PTE_NORMAL ||| PTE_VALID),
   .orr (.x 6) (.x 1) (.x 5)]

/-- Setup of `l1upgt`. -/
def l1upgtOps (b : Image) : List Op :=
  [.movImm (.x 0) (address b.l1upgt),
   .movImm (.x 1) 0x40000000,
   .movImm (.x 2) b.last,
   .lsr (.x 3) (.x 1) 30,
   .andImm (.x 3) (.x 3) 0x1ff,
   .movImm (.x 4) (PTE_TABLE ||| PTE_VALID),
   .movImm (.x 5) (address b.l2upgt),
   .orr (.x 6) (.x 4) (.x 5),
   .strLsl3 (.x 6) (.x 0) (.x 3)]

/-- Setup of `l2kpgt0`, before its loop. -/
def l2kpgt0Ops (b : Image) : List Op :=
  [.movImm (.x 0) (address b.l2kpgt0),
   .movImm (.x 1) (address b.l2kpgt1),
   .movImm (.x 2) 0x8000000,
   .movImm (.x 3) 0x3fffffff,
   .movImm (.x 4) (BitVec.ofNat 64 VA_START),
   .add (.x 5) (.x 2) (.x 4),
   .add (.x 6) (.x 3) (.x 4),
   .lsr (.x 7) (.x 5) 21,
   .andImm (.x 7) (.x 7) 0x1ff,
   .lsr (.x 8) (.x 6) 21,
   .andImm (.x 8) (.x 8) 0x1ff,
   .movImm (.x 10) (PTE_AF ||| PTE_VALID),
   .orr (.x 9) (.x 2) (.x 10)]

/-- Setup of `l2kpgt1`, before its loop. -/
def l2kpgt1Ops (b : Image) : List Op :=
  [.movImm (.x 2) 0x40000000,
   .movImm (.x 3) b.last,
   .movImm (.x 4) (BitVec.ofNat 64 VA_START),
   .add (.x 5) (.x 2) (.x 4),
   .add (.x 6) (.x 3) (.x 4),
   .lsr (.x 7) (.x 5) 21,
   .andImm (.x 7) (.x 7) 0x1ff,
   .lsr (.x 8) (.x 6) 21,
   .andImm (.x 8) (.x 8) 0x1ff,
   .movImm (.x 10) (PTE_AF ||| PTE_NORMAL ||| PTE_VALID),
   .orr (.x 9) (.x 2) (.x 10)]

/-- Setup of `l1kpgt`. -/
def l1kpgtOps (b : Image) : List Op :=
  [.movImm (.x 0) (address b.l1kpgt),
   .movImm (.x 1) 0x8000000,
   .movImm (.x 2) b.last,
   .movImm (.x 4) (BitVec.ofNat 64 VA_START),
   .add (.x 3) (.x 1) (.x 4),
   .add (.x 4) (.x 2) (.x 4),
   .lsr (.x 5) (.x 3) 30,
   .andImm (.x 5) (.x 5) 0x1ff,
   .movImm (.x 6) (PTE_TABLE ||| PTE_VALID),
   .movImm (.x 7) (address b.l2kpgt0),
   .movImm (.x 8) (address b.l2kpgt1),
   .orr (.x 7) (.x 7) (.x 6),
   .orr (.x 8) (.x 8) (.x 6),
   .strLsl3 (.x 7) (.x 0) (.x 5),
   .addImm (.x 5) (.x 5) 1,
   .strLsl3 (.x 8) (.x 0) (.x 5)]

/-- The MMU is turned on. The code behind it runs at virtual addresses. -/
def enableOps (b : Image) : List Op :=
  [.movImm (.x 0) (address b.l1upgt),
   .msr .ttbr0_el1 (.x 0),
   .movImm (.x 0) (address b.l1kpgt),
   .msr .ttbr1_el1 (.x 0),
   .movImm (.x 0) tcr,
   .msr .tcr_el1 (.x 0),
   .movImm (.x 1) mair,
   .msr .mair_el1 (.x 1),
   .isb,
   .movImm (.x 1) clearbss,
   .mrs (.x 0) .sctlr_el1,
   .orrImm (.x 0) (.x 0) 1,
   .msr .sctlr_el1 (.x 0),
   .isb]

/-- `secondary_entry`, up to its branch. -/
def secondaryOps (b : Image) : List Op :=
  [.movImm (.x 0) (address b.l1upgt),
   .msr .ttbr0_el1 (.x 0),
   .movImm (.x 0) (address b.l1kpgt),
   .msr .ttbr1_el1 (.x 0),
   .movImm (.x 0) tcr,
   .msr .tcr_el1 (.x 0),
   .movImm (.x 1) mair,
   .msr .mair_el1 (.x 1),
   .movImm (.x 1) primaryEntry,
   .mrs (.x 0) .sctlr_el1,
   .orrImm (.x 0) (.x 0) 1,
   .msr .sctlr_el1 (.x 0)]

/-- `primary_entry`, up to its branch. -/
def primaryOps (b : Image) : List Op :=
  [.movImm (.x 0) b.vectortable,
   .msr .vbar_el1 (.x 0),
   .mrs (.x 0) .mpidr_el1,
   .andImm (.x 0) (.x 0) 0xff,
   .addImm (.x 0) (.x 0) 1,
   .movImm (.x 1) 4096,
   .mul (.x 0) (.x 0) (.x 1),
   .movImm (.x 2) b.kstack,
   .add (.x 2) (.x 2) (.x 0),
   .mov .sp (.x 2)]

/-- `_start`, at `a`. -/
def start (a : Word) : List Instr :=
  [.op (.mrs (.x 1) .mpidr_el1), .op (.andImm (.x 1) (.x 1) 0xff), .cbz (.x 1) (label a 4), .b (label a 99)]

/-- `kernel_start`, with `_start` at `a`. -/
def kernelStart (b : Image) (a : Word) : List Instr :=
  b.l2upgtOps.map .op ++ (fillLoop 0 3 6 4 0x200000 (label a 13) ++ (b.l1upgtOps.map .op ++
    (b.l2kpgt0Ops.map .op ++ (fillLoop 0 7 9 8 0x200000 (label a 40) ++ (b.l2kpgt1Ops.map .op ++
      (fillLoop 1 7 9 8 0x200000 (label a 56) ++ (b.l1kpgtOps.map .op ++ (b.enableOps.map .op ++ [.br (.x 1)]))))))))

/-- `clearbss`. -/
def clear (b : Image) (a : Word) : List Instr :=
  [.op (.movImm (.x 1) (BitVec.ofNat 64 b.bss_start)), .op (.movImm (.x 2) (BitVec.ofNat 64 (b.bssSize % 2 ^ 32)))] ++ (clearLoop 1 2 (label a 94) ++ [.b (label a 112)])

/-- The file, at `a`: its branches are relative. -/
def text (b : Image) (a : Word) : List Instr :=
  start a ++ (b.kernelStart a ++ (b.clear a ++ (b.secondaryOps.map .op ++ [.br (.x 1)] ++ (b.primaryOps.map .op ++ [.b b.main]))))

end Image

/-- The words of memory, page by page. -/
def pages (m : Mem) : Memory := fun page i => m (slot (address page) i)

/-- What is right about the layout: five pages for tables, in the image and before `.bss`, which is cleared. -/
structure Image.Linked (b : Image) : Prop where
  kernel : KernelImage b.kend b.l1kpgt b.l2kpgt0 b.l2kpgt1
  inside : ∀ page ∈ [b.l1upgt, b.l2upgt], InRam page
  distinct : [b.l1kpgt, b.l2kpgt0, b.l2kpgt1, b.l1upgt, b.l2upgt].Nodup
  before : ∀ page : Nat, page ∈ [b.l1kpgt, b.l2kpgt0, b.l2kpgt1, b.l1upgt, b.l2upgt] → page * PAGESIZE + PAGESIZE + VA_START ≤ b.bss_start
  bss : b.bss_start % PAGESIZE = 0 ∧ b.bss_start ≤ b.bss_end ∧ b.bss_end ≤ b.kend

/-- The tables that map memory to itself. -/
def bootUpgt (b : Image) (word : Memory) : Memory :=
  let blocks := l2pgtLoop ((PIDX 2 (V2P b.kend - 1)).val + 1) 0 (0x40000000#64 ||| (PTE_AF ||| PTE_NORMAL ||| PTE_VALID)) fun _ => 0
  let word := Function.update word b.l2upgt blocks
  Function.update word b.l1upgt (Function.update (fun _ => 0) 1 (PTE_TABLE ||| PTE_VALID ||| address b.l2upgt))

section Tables
variable {m : Mem} {p q : PageNo} {i j : Nat} {w : Word}

/-- The index of an address in a second-level table, as the code computes it. -/
theorem index_eq (a : Nat) (lt : a < 2 ^ 64) : (BitVec.ofNat 64 a >>> 21) &&& 0x1ff = BitVec.ofNat 64 (a / 2 ^ 21 % 512) := by
  apply BitVec.eq_of_toNat_eq
  rw [BitVec.toNat_and, BitVec.toNat_ushiftRight, BitVec.toNat_ofNat, BitVec.toNat_ofNat, Nat.mod_eq_of_lt lt, Nat.shiftRight_eq_div_pow,
    show (0x1ff : Word).toNat = 2 ^ 9 - 1 by decide, Nat.and_two_pow_sub_one_eq_mod]
  omega

/-- Words of pages are apart. -/
theorem slot_page (small : p < 2 ^ 52) (small' : q < 2 ^ 52) (lt : i < 512) (lt' : j < 512) (same : slot (address p) i = slot (address q) j) :
    p = q ∧ i = j := by
  have place : ∀ (r k : Nat), r < 2 ^ 52 → k < 512 → (slot (address r) k).toNat = r * 4096 + 8 * k := by
    intro r k small lt
    unfold slot address
    rw [← BitVec.ofNat_add, BitVec.toNat_ofNat]
    exact Nat.mod_eq_of_lt (by simp only [PAGESIZE]; omega)
  have value := congrArg BitVec.toNat same
  rw [place p i small lt, place q j small' lt'] at value
  have apart : ∀ x y : Nat, x * 4096 + 8 * i = y * 4096 + 8 * j → x = y ∧ i = j := by
    intro x y eq
    omega
  exact apart p q value

/-- A word of a page. -/
theorem pages_update (small : p < 2 ^ 52) (lt : i < 512) (small' : q < 2 ^ 52) :
    pages (Function.update m (slot (address p) i) w) q = Function.update (pages m) p (Function.update (pages m p) (Fin.ofNat 512 i) w) q := by
  funext j
  unfold pages
  by_cases eq : q = p
  · subst eq
    rw [Function.update_self]
    by_cases here : j = Fin.ofNat 512 i
    · subst here
      rw [Function.update_self, Fin.val_ofNat, Nat.mod_eq_of_lt lt, Function.update_self]
    · have ne : slot (address q) j ≠ slot (address q) i := by
        intro same
        have eq := (slot_page small small j.isLt lt same).2
        refine here (Fin.ext ?_)
        rw [Fin.val_ofNat, Nat.mod_eq_of_lt lt, eq]
      rw [Function.update_of_ne ne, Function.update_of_ne here]
  · have ne : slot (address q) j ≠ slot (address p) i := fun same => eq (slot_page small' small j.isLt lt same).1
    rw [Function.update_of_ne ne, Function.update_of_ne eq]

/-- The words of a loop. -/
theorem pages_strides (n : Nat) : ∀ {m : Mem} {i : Nat} {w : Word}, p < 2 ^ 52 → i + n ≤ 512 → ∀ q < 2 ^ 52,
    pages (m.put (slot (address p) i) (strides 0x200000 n w)) q = Function.update (pages m) p (l2pgtLoop n i w (pages m p)) q := by
  induction n with
  | zero =>
    intro m i w small le q small'
    show pages m q = _
    rw [l2pgtLoop, Function.update_eq_self]
  | succ n ih =>
    intro m i w small le q small'
    have behind : slot (address p) i + 8 = slot (address p) (i + 1) := slot_add (address p) i 1
    have rest := ih (m := Function.update m (slot (address p) i) w) (i := i + 1) (w := w + 0x200000) small (by omega) q small'
    rw [strides, Mem.put, behind, rest, pages_update small (by omega) small, Function.update_self]
    by_cases eq : q = p
    · subst eq
      rw [Function.update_self, Function.update_self]
      rfl
    · rw [Function.update_of_ne eq, Function.update_of_ne eq, pages_update small (by omega) small', Function.update_of_ne eq]

end Tables

/-- What setup leaves alone. -/
structure Same (s t : State) : Prop where
  mem : t.mem = s.mem
  mode : t.mode = s.mode
  sys : t.sys = s.sys

section Setup
variable (b : Image) (s : State)

theorem address_aligned (page : PageNo) : (address page).toNat % 8 = 0 := by
  unfold address
  rw [BitVec.toNat_ofNat]
  simp only [PAGESIZE]
  omega

/-- The index of a kernel address is that of the sum that the code makes. -/
theorem sum_index {pa : Nat} (small : pa < 2 ^ 39) :
    ((BitVec.ofNat 64 pa + BitVec.ofNat 64 VA_START) >>> 21) &&& 0x1ff = BitVec.ofNat 64 (PIDX 2 (pa + VA_START)).val := by
  rw [← BitVec.ofNat_add]
  refine index_eq _ ?_
  simp only [VA_START]
  omega

theorem l2upgtOps_runs (small : V2P b.kend - 1 < 2 ^ 64) : ∃ t, Op.runs b.l2upgtOps s = some t ∧ t.x 0 = address b.l2upgt ∧ t.x 3 = BitVec.ofNat 64 0 ∧
    t.x 4 = BitVec.ofNat 64 (0 + (PIDX 2 (V2P b.kend - 1)).val) ∧ t.x 6 = 0x40000000#64 ||| (PTE_AF ||| PTE_NORMAL ||| PTE_VALID) ∧ Same s t := by
  refine ⟨_, rfl, rfl, ?_, ?_, rfl, rfl, rfl, rfl⟩
  · show (0x40000000#64 >>> 21) &&& 0x1ff = 0
    decide
  · rw [Nat.zero_add]
    exact index_eq _ small

theorem l1upgtOps_runs : ∃ t, Op.runs b.l1upgtOps s = some t ∧
    t.mem = Function.update s.mem (slot (address b.l1upgt) 1) (PTE_TABLE ||| PTE_VALID ||| address b.l2upgt) ∧ t.mode = s.mode ∧ t.sys = s.sys := by
  obtain ⟨u, ran, base, index, entry, same⟩ : ∃ u, Op.runs (b.l1upgtOps.take 8) s = some u ∧ u.x 0 = address b.l1upgt ∧ u.x 3 = BitVec.ofNat 64 1 ∧
      u.x 6 = PTE_TABLE ||| PTE_VALID ||| address b.l2upgt ∧ Same s u := by
    refine ⟨_, rfl, rfl, ?_, rfl, rfl, rfl, rfl⟩
    show (0x40000000#64 >>> 30) &&& 0x1ff = 1
    decide
  have aligned : (u.x 0).toNat % 8 = 0 := by
    rw [base]
    exact address_aligned _
  have stored := exec_strLsl3 6 0 index aligned
  refine ⟨_, Op.runs_append ran (Op.runs_cons stored rfl), ?_, Regs.mode_congr rfl |>.trans same.mode, same.sys⟩
  rw [base, entry, same.mem]

theorem l2kpgt0Ops_runs : ∃ t, Op.runs b.l2kpgt0Ops s = some t ∧ t.x 0 = address b.l2kpgt0 ∧ t.x 1 = address b.l2kpgt1 ∧ t.x 7 = BitVec.ofNat 64 64 ∧
    t.x 8 = BitVec.ofNat 64 (64 + 447) ∧ t.x 9 = 0x8000000#64 ||| (PTE_AF ||| PTE_VALID) ∧ Same s t := by
  refine ⟨_, rfl, rfl, rfl, ?_, ?_, rfl, rfl, rfl, rfl⟩
  · show ((0x8000000#64 + BitVec.ofNat 64 VA_START) >>> 21) &&& 0x1ff = 64#64
    decide
  · show ((0x3fffffff#64 + BitVec.ofNat 64 VA_START) >>> 21) &&& 0x1ff = 511#64
    decide

theorem l2kpgt1Ops_runs (small : V2P b.kend - 1 < 2 ^ 39) : ∃ t, Op.runs b.l2kpgt1Ops s = some t ∧ t.x 1 = s.x 1 ∧ t.x 7 = BitVec.ofNat 64 0 ∧
    t.x 8 = BitVec.ofNat 64 (0 + (PIDX 2 (V2P b.kend - 1 + VA_START)).val) ∧ t.x 9 = 0x40000000#64 ||| (PTE_AF ||| PTE_NORMAL ||| PTE_VALID) ∧
    Same s t := by
  refine ⟨_, rfl, rfl, ?_, ?_, rfl, rfl, rfl, rfl⟩
  · show ((0x40000000#64 + BitVec.ofNat 64 VA_START) >>> 21) &&& 0x1ff = 0#64
    decide
  · rw [Nat.zero_add]
    exact sum_index small

theorem l1kpgtOps_runs : ∃ t, Op.runs b.l1kpgtOps s = some t ∧
    t.mem = Function.update (Function.update s.mem (slot (address b.l1kpgt) 0) (address b.l2kpgt0 ||| (PTE_TABLE ||| PTE_VALID)))
      (slot (address b.l1kpgt) 1) (address b.l2kpgt1 ||| (PTE_TABLE ||| PTE_VALID)) ∧ t.mode = s.mode ∧ t.sys = s.sys := by
  obtain ⟨u, ran, base, index, entry, entry', same⟩ : ∃ u, Op.runs (b.l1kpgtOps.take 13) s = some u ∧ u.x 0 = address b.l1kpgt ∧
      u.x 5 = BitVec.ofNat 64 0 ∧ u.x 7 = address b.l2kpgt0 ||| (PTE_TABLE ||| PTE_VALID) ∧ u.x 8 = address b.l2kpgt1 ||| (PTE_TABLE ||| PTE_VALID) ∧
      Same s u := by
    refine ⟨_, rfl, rfl, ?_, rfl, rfl, rfl, rfl, rfl⟩
    show ((0x8000000#64 + BitVec.ofNat 64 VA_START) >>> 30) &&& 0x1ff = 0
    decide
  have aligned : (u.x 0).toNat % 8 = 0 := by
    rw [base]
    exact address_aligned _
  let v : State := { u with mem := Function.update u.mem (slot (u.x 0) 0) (u.x 7), pc := u.pc + 4 }
  have stored : Op.exec (.strLsl3 (.x 7) (.x 0) (.x 5)) u = some v := exec_strLsl3 7 0 index aligned
  let w : State := (v.setX 5 (v.x 5 + 1)).next
  have index' : w.x 5 = BitVec.ofNat 64 1 := by
    show u.x 5 + 1 = 1#64
    rw [index]
    rfl
  have stored' := exec_strLsl3 (s := w) 8 0 index' aligned
  refine ⟨_, Op.runs_append ran (Op.runs_cons stored (Op.runs_cons (t := w) rfl (Op.runs_cons stored' rfl))), ?_, Regs.mode_congr rfl |>.trans same.mode, same.sys⟩
  show Function.update (Function.update u.mem (slot (u.x 0) 0) (u.x 7)) (slot (u.x 0) 1) (u.x 8) = _
  rw [base, entry, entry', same.mem]

/-- The system registers behind it. -/
def enabled (b : Image) (sys : SysReg → Word) : SysReg → Word :=
  Function.update (Function.update (Function.update (Function.update (Function.update sys .ttbr0_el1 (address b.l1upgt))
    .ttbr1_el1 (address b.l1kpgt)) .tcr_el1 Image.tcr) .mair_el1 Image.mair) .sctlr_el1 (sys .sctlr_el1 ||| 1)

theorem exec_msr {u : State} (r : SysReg) (n : Fin 31) (mode : u.mode = EL1h) : Op.exec (.msr r (.x n)) u = some (u.setSys r (u.x n)).next := if_pos mode

theorem exec_mrs {u : State} (r : SysReg) (n : Fin 31) (mode : u.mode = EL1h) : Op.exec (.mrs (.x n) r) u = some (u.setX n (u.sys r)).next := if_pos mode

/-- A system register is set. -/
theorem setting_runs {u : State} (r : SysReg) (n : Fin 31) (w : Word) (mode : u.mode = EL1h) :
    Op.runs [.movImm (.x n) w, .msr r (.x n)] u = some ((u.setX n w).next.setSys r w).next := by
  have written : Op.exec (.msr r (.x n)) (u.setX n w).next = some ((u.setX n w).next.setSys r w).next := by
    have mode' : (u.setX n w).next.mode = EL1h := mode
    rw [exec_msr r n mode']
    have value : (u.setX n w).next.x n = w := Function.update_self ..
    rw [value]
  exact Op.runs_cons rfl (Op.runs_cons written rfl)

/-- The registers of the MMU, but for the one that turns it on. -/
def mmuOps (b : Image) : List Op := b.secondaryOps.take 8

theorem mmuOps_runs (mode : s.mode = EL1h) : ∃ t, Op.runs (mmuOps b) s = some t ∧ t.mem = s.mem ∧ t.pstate = s.pstate ∧
    t.sys = Function.update (Function.update (Function.update (Function.update s.sys .ttbr0_el1 (address b.l1upgt)) .ttbr1_el1 (address b.l1kpgt))
      .tcr_el1 Image.tcr) .mair_el1 Image.mair := by
  let s₁ : State := ((s.setX 0 (address b.l1upgt)).next.setSys .ttbr0_el1 (address b.l1upgt)).next
  let s₂ : State := ((s₁.setX 0 (address b.l1kpgt)).next.setSys .ttbr1_el1 (address b.l1kpgt)).next
  let s₃ : State := ((s₂.setX 0 Image.tcr).next.setSys .tcr_el1 Image.tcr).next
  let s₄ : State := ((s₃.setX 1 Image.mair).next.setSys .mair_el1 Image.mair).next
  have first := setting_runs .ttbr0_el1 0 (address b.l1upgt) mode
  have second := setting_runs (u := s₁) .ttbr1_el1 0 (address b.l1kpgt) mode
  have third := setting_runs (u := s₂) .tcr_el1 0 Image.tcr mode
  have fourth := setting_runs (u := s₃) .mair_el1 1 Image.mair mode
  exact ⟨s₄, Op.runs_append first (Op.runs_append second (Op.runs_append third fourth)), rfl, rfl, rfl⟩

/-- The first core turns it on, -/
theorem enableOps_runs (mode : s.mode = EL1h) : ∃ t, Op.runs b.enableOps s = some t ∧ t.x 1 = Image.clearbss ∧ t.sys = enabled b s.sys ∧ t.mem = s.mem ∧
    t.pstate = s.pstate := by
  obtain ⟨u, ran, mem, pstate, sys⟩ := mmuOps_runs b s mode
  have mode' : u.mode = EL1h := (Regs.mode_congr pstate).trans mode
  let v : State := (u.next.setX 1 Image.clearbss).next
  let w : State := (v.setX 0 (v.sys .sctlr_el1)).next
  let x : State := (w.setX 0 (w.x 0 ||| 1)).next
  have read : Op.exec (.mrs (.x 0) .sctlr_el1) v = some w := exec_mrs .sctlr_el1 0 mode'
  have written : Op.exec (.msr .sctlr_el1 (.x 0)) x = some (x.setSys .sctlr_el1 (x.x 0)).next := exec_msr .sctlr_el1 0 mode'
  refine ⟨(x.setSys .sctlr_el1 (x.x 0)).next.next, ?_, rfl, ?_, mem, pstate⟩
  · have rest : Op.runs [.mrs (.x 0) .sctlr_el1, .orrImm (.x 0) (.x 0) 1, .msr .sctlr_el1 (.x 0), .isb] v = some (x.setSys .sctlr_el1 (x.x 0)).next.next :=
      Op.runs_cons read (Op.runs_cons rfl (Op.runs_cons written (Op.runs_cons rfl rfl)))
    exact Op.runs_append ran (Op.runs_cons rfl (Op.runs_cons rfl rest))
  · show Function.update u.sys .sctlr_el1 (u.sys .sctlr_el1 ||| 1) = _
    rw [sys]
    rfl

/-- and so do the others. -/
theorem secondaryOps_runs (mode : s.mode = EL1h) : ∃ t, Op.runs b.secondaryOps s = some t ∧ t.x 1 = Image.primaryEntry ∧ t.sys = enabled b s.sys ∧
    t.mem = s.mem ∧ t.pstate = s.pstate := by
  obtain ⟨u, ran, mem, pstate, sys⟩ := mmuOps_runs b s mode
  have mode' : u.mode = EL1h := (Regs.mode_congr pstate).trans mode
  let v : State := (u.setX 1 Image.primaryEntry).next
  let w : State := (v.setX 0 (v.sys .sctlr_el1)).next
  let x : State := (w.setX 0 (w.x 0 ||| 1)).next
  have read : Op.exec (.mrs (.x 0) .sctlr_el1) v = some w := exec_mrs .sctlr_el1 0 mode'
  have written : Op.exec (.msr .sctlr_el1 (.x 0)) x = some (x.setSys .sctlr_el1 (x.x 0)).next := exec_msr .sctlr_el1 0 mode'
  refine ⟨(x.setSys .sctlr_el1 (x.x 0)).next, ?_, rfl, ?_, mem, pstate⟩
  · have rest : Op.runs [.mrs (.x 0) .sctlr_el1, .orrImm (.x 0) (.x 0) 1, .msr .sctlr_el1 (.x 0)] v = some (x.setSys .sctlr_el1 (x.x 0)).next :=
      Op.runs_cons read (Op.runs_cons rfl (Op.runs_cons written rfl))
    exact Op.runs_append ran (Op.runs_cons rfl rest)
  · show Function.update u.sys .sctlr_el1 (u.sys .sctlr_el1 ||| 1) = _
    rw [sys]
    rfl

end Setup

section Runs
variable {b : Image} {code : Code} {a : Word} {s t : State}

/-- Straight-line code, by its place in a file. -/
theorem run_part {is : List Instr} {i : Nat} {ops : List Op} (text : code.At a is) (eq : (is.drop i).take (ops.map Instr.op).length = ops.map .op)
    (pc : s.pc = label a i) (ran : Op.runs ops s = some t) : run code ops.length s = some t ∧ t.pc = label a (i + ops.length) := by
  have here : code.At s.pc (ops.map .op) := by
    rw [pc]
    exact text.part i _ eq
  have place : label a i + BitVec.ofNat 64 (4 * ops.length) = label a (i + ops.length) := by
    unfold label
    rw [BitVec.add_assoc, ← BitVec.ofNat_add, Nat.mul_add]
  refine ⟨run_ops here ran, ?_⟩
  rw [Op.runs_pc ran, pc, place]

theorem fetch_part {is : List Instr} {i : Nat} {instr : Instr} (text : code.At a is) (eq : (is.drop i).take [instr].length = [instr])
    (pc : s.pc = label a i) : code s.pc = some instr := by
  rw [pc]
  exact (text.part i [instr] eq).head

/-- The five tables. -/
def Image.tables (b : Image) : List PageNo := [b.l1kpgt, b.l2kpgt0, b.l2kpgt1, b.l1upgt, b.l2upgt]

theorem Image.Linked.small (h : b.Linked) : ∀ page ∈ b.tables, page < 2 ^ 36 := by
  intro page mem
  have ram : InRam page := by
    simp only [Image.tables, List.mem_cons, List.not_mem_nil, or_false] at mem
    rcases mem with rfl | rfl | rfl | rfl | rfl
    · exact (h.kernel.inside _ (by simp)).1
    · exact (h.kernel.inside _ (by simp)).1
    · exact (h.kernel.inside _ (by simp)).1
    · exact h.inside _ (by simp)
    · exact h.inside _ (by simp)
  exact ram.small

theorem Image.Linked.last_lt (h : b.Linked) : V2P b.kend - 1 < 2 ^ 39 := by
  have below := h.kernel.below
  unfold PHYMEMEND KERNBASE at below
  have top : PKERNBASE + 256 * 1024 * 1024 ≤ 2 ^ 39 := by decide
  unfold V2P
  omega

/-- Memory, where there are pages. -/
def Shown (m : Mem) (word : Memory) : Prop := ∀ q < 2 ^ 52, pages m q = word q

theorem shown_self (m : Mem) : Shown m (pages m) := fun _ _ => rfl

section Shows
variable {m m' : Mem} {word : Memory} {p : PageNo} {i : Nat} {w : Word}

theorem Shown.update (h : Shown m word) (small : p < 2 ^ 52) (lt : i < 512) (eq : m' = Function.update m (slot (address p) i) w) :
    Shown m' (Function.update word p (Function.update (word p) (Fin.ofNat 512 i) w)) := by
  intro q small'
  rw [eq, pages_update small lt small']
  by_cases here : q = p
  · subst here
    rw [Function.update_self, Function.update_self, h q small]
  · rw [Function.update_of_ne here, Function.update_of_ne here, h q small']

theorem Shown.strides (h : Shown m word) (n : Nat) (small : p < 2 ^ 52) (le : i + (n + 1) ≤ 512)
    (eq : m' = m.put (slot (address p) i) (Aarch64.strides 0x200000 (n + 1) w)) : Shown m' (Function.update word p (l2pgtLoop (n + 1) i w (word p))) := by
  intro q small'
  rw [eq, pages_strides (n + 1) small le q small']
  by_cases here : q = p
  · subst here
    rw [Function.update_self, Function.update_self, h q small]
  · rw [Function.update_of_ne here, Function.update_of_ne here, h q small']

end Shows

/-- The same in the order of the code, each loop on what the one before has left. -/
def written (b : Image) (word : Memory) : Memory :=
  let word := Function.update word b.l2upgt
    (l2pgtLoop ((PIDX 2 (V2P b.kend - 1)).val + 1) 0 (0x40000000#64 ||| (PTE_AF ||| PTE_NORMAL ||| PTE_VALID)) (word b.l2upgt))
  let word := Function.update word b.l1upgt (Function.update (word b.l1upgt) (Fin.ofNat 512 1) (PTE_TABLE ||| PTE_VALID ||| address b.l2upgt))
  let word := Function.update word b.l2kpgt0 (l2pgtLoop 448 64 (0x8000000#64 ||| (PTE_AF ||| PTE_VALID)) (word b.l2kpgt0))
  let word := Function.update word b.l2kpgt1
    (l2pgtLoop ((PIDX 2 (V2P b.kend - 1 + VA_START)).val + 1) 0 (0x40000000#64 ||| (PTE_AF ||| PTE_NORMAL ||| PTE_VALID)) (word b.l2kpgt1))
  let word := Function.update word b.l1kpgt
    (Function.update (word b.l1kpgt) (Fin.ofNat 512 0) (address b.l2kpgt0 ||| (PTE_TABLE ||| PTE_VALID)))
  Function.update word b.l1kpgt (Function.update (word b.l1kpgt) (Fin.ofNat 512 1) (address b.l2kpgt1 ||| (PTE_TABLE ||| PTE_VALID)))

theorem mapSections_devices : mapSections 0x8000000 0x3fffffff (PTE_AF ||| PTE_VALID) = l2pgtLoop 448 64 (0x8000000#64 ||| (PTE_AF ||| PTE_VALID)) fun _ => 0 := by
  have index : (PIDX 2 (0x8000000 + VA_START)).val = 64 ∧ (PIDX 2 (0x3fffffff + VA_START)).val = 511 := by decide
  rw [mapSections, index.1, index.2]
  rfl

theorem mapSections_kernel (last : Nat) : mapSections 0x40000000 last (PTE_AF ||| PTE_NORMAL ||| PTE_VALID) =
    l2pgtLoop ((PIDX 2 (last + VA_START)).val + 1) 0 (0x40000000#64 ||| (PTE_AF ||| PTE_NORMAL ||| PTE_VALID)) fun _ => 0 := by
  have index : (PIDX 2 (0x40000000 + VA_START)).val = 0 := by decide
  rw [mapSections, index, Nat.sub_zero]
  rfl

theorem written_eq (linked : b.Linked) {word : Memory} (zero : ∀ page ∈ b.tables, word page = fun _ => 0) :
    written b word = bootUpgt b (bootPgt b.kend b.l1kpgt b.l2kpgt0 b.l2kpgt1 word) := by
  have distinct := linked.distinct
  simp only [List.nodup_cons, List.mem_cons, List.not_mem_nil, or_false, not_or] at distinct
  obtain ⟨⟨d₁₂, d₁₃, d₁₄, d₁₅⟩, ⟨d₂₃, d₂₄, d₂₅⟩, ⟨d₃₄, d₃₅⟩, d₄₅, -⟩ := distinct
  have zeros : word b.l1kpgt = (fun _ => 0) ∧ word b.l2kpgt0 = (fun _ => 0) ∧ word b.l2kpgt1 = (fun _ => 0) ∧ word b.l1upgt = (fun _ => 0) ∧
      word b.l2upgt = fun _ => 0 :=
    ⟨zero _ (by simp [Image.tables]), zero _ (by simp [Image.tables]), zero _ (by simp [Image.tables]), zero _ (by simp [Image.tables]),
      zero _ (by simp [Image.tables])⟩
  obtain ⟨zero₁, zero₂, zero₃, zero₄, zero₅⟩ := zeros
  have index : PIDX 1 (0x8000000 + VA_START) = 0 := by decide
  funext q
  unfold written bootUpgt bootPgt
  simp only [mapSections_devices, mapSections_kernel, index]
  by_cases eq₁ : q = b.l1kpgt
  · subst eq₁
    simp [*]
    rfl
  by_cases eq₂ : q = b.l2kpgt0
  · subst eq₂
    simp [Ne.symm d₁₂, *]
  by_cases eq₃ : q = b.l2kpgt1
  · subst eq₃
    simp [Ne.symm d₁₃, Ne.symm d₂₃, *]
  by_cases eq₄ : q = b.l1upgt
  · subst eq₄
    simp [Ne.symm d₁₄, Ne.symm d₂₄, Ne.symm d₃₄, *]
    rfl
  by_cases eq₅ : q = b.l2upgt
  · subst eq₅
    simp [Ne.symm d₁₅, Ne.symm d₂₅, Ne.symm d₃₅, Ne.symm d₄₅, *]
  simp [*]

/-- **The tables** are built by the code from `kernel_start` to its last branch, which goes on at a virtual address. -/
theorem kernelStart_runs (linked : b.Linked) (text : code.At a (b.text a)) (pc : s.pc = label a 4) (mode : s.mode = EL1h)
    (zero : ∀ page ∈ b.tables, pages s.mem page = fun _ => 0) :
    ∃ n t, run code n s = some t ∧ t.pc = Image.clearbss ∧ t.sys = enabled b s.sys ∧ t.mode = EL1h ∧
      ∀ q < 2 ^ 52, pages t.mem q = bootUpgt b (bootPgt b.kend b.l1kpgt b.l2kpgt0 b.l2kpgt1 (pages s.mem)) q := by
  have last := linked.last_lt
  have page : ∀ p ∈ b.tables, p < 2 ^ 52 := fun p mem => lt_trans (linked.small p mem) (by norm_num)
  -- the tables of physical memory
  obtain ⟨s₁, ran₁, base₁, index₁, last₁, entry₁, same₁⟩ := l2upgtOps_runs b s (lt_trans last (by norm_num))
  obtain ⟨run₁, pc₁⟩ := run_part (i := 4) text rfl pc ran₁
  have loop₁ : code.At s₁.pc (fillLoop 0 3 6 4 0x200000 s₁.pc) := by
    rw [pc₁]
    exact text.part 13 (fillLoop 0 3 6 4 0x200000 (label a 13)) rfl
  obtain ⟨s₂, run₂, kept₂, mem₂, pc₂⟩ := run_fillLoop (PIDX 2 (V2P b.kend - 1)).val loop₁ (by decide) index₁ last₁ (by omega)
    (by rw [base₁]; exact address_aligned _)
  rw [base₁, entry₁, same₁.mem] at mem₂
  have place₂ : s₂.pc = label a 18 := by rw [pc₂, pc₁]; exact BitVec.add_assoc ..
  obtain ⟨s₃, ran₃, mem₃, mode₃, sys₃⟩ := l1upgtOps_runs b s₂
  obtain ⟨run₃, pc₃⟩ := run_part (i := 18) text rfl place₂ ran₃
  -- devices
  obtain ⟨s₄, ran₄, base₄, other₄, index₄, last₄, entry₄, same₄⟩ := l2kpgt0Ops_runs b s₃
  obtain ⟨run₄, pc₄⟩ := run_part (i := 27) text rfl pc₃ ran₄
  have loop₄ : code.At s₄.pc (fillLoop 0 7 9 8 0x200000 s₄.pc) := by
    rw [pc₄]
    exact text.part 40 (fillLoop 0 7 9 8 0x200000 (label a 40)) rfl
  obtain ⟨s₅, run₅, kept₅, mem₅, pc₅⟩ := run_fillLoop 447 loop₄ (by decide) index₄ last₄ (by omega) (by rw [base₄]; exact address_aligned _)
  rw [base₄, entry₄, same₄.mem] at mem₅
  have place₅ : s₅.pc = label a 45 := by rw [pc₅, pc₄]; exact BitVec.add_assoc ..
  -- the kernel
  obtain ⟨s₆, ran₆, base₆, index₆, last₆, entry₆, same₆⟩ := l2kpgt1Ops_runs b s₅ last
  obtain ⟨run₆, pc₆⟩ := run_part (i := 45) text rfl place₅ ran₆
  have base : s₆.x 1 = address b.l2kpgt1 := by
    rw [base₆, kept₅.regs 1 (by decide), other₄]
  have loop₆ : code.At s₆.pc (fillLoop 1 7 9 8 0x200000 s₆.pc) := by
    rw [pc₆]
    exact text.part 56 (fillLoop 1 7 9 8 0x200000 (label a 56)) rfl
  obtain ⟨s₇, run₇, kept₇, mem₇, pc₇⟩ := run_fillLoop (PIDX 2 (V2P b.kend - 1 + VA_START)).val loop₆ (by decide) index₆ last₆ (by omega)
    (by rw [base]; exact address_aligned _)
  rw [base, entry₆, same₆.mem] at mem₇
  have place₇ : s₇.pc = label a 61 := by rw [pc₇, pc₆]; exact BitVec.add_assoc ..
  obtain ⟨s₈, ran₈, mem₈, mode₈, sys₈⟩ := l1kpgtOps_runs b s₇
  obtain ⟨run₈, pc₈⟩ := run_part (i := 61) text rfl place₇ ran₈
  -- the MMU
  have high : s₈.mode = EL1h := by
    rw [mode₈, kept₇.mode, same₆.mode, kept₅.mode, same₄.mode, mode₃, kept₂.mode, same₁.mode, mode]
  obtain ⟨s₉, ran₉, target, sys₉, mem₉, pstate₉⟩ := enableOps_runs b s₈ high
  obtain ⟨run₉, pc₉⟩ := run_part (i := 77) text rfl pc₈ ran₉
  have fetch : code s₉.pc = some (.br (.x 1)) := fetch_part (i := 91) text rfl pc₉
  have branch : step code s₉ = some { s₉ with pc := Image.clearbss } := by
    rw [step, fetch, ← target]
    rfl
  have sys : s₉.sys = enabled b s.sys := by
    rw [sys₉, sys₈, kept₇.sys, same₆.sys, kept₅.sys, same₄.sys, sys₃, kept₂.sys, same₁.sys]
  let t : State := { s₉ with pc := Image.clearbss }
  have last_step : run code 1 s₉ = some t := run_succ branch rfl
  have all := run_add run₁ (run_add run₂ (run_add run₃ (run_add run₄ (run_add run₅ (run_add run₆ (run_add run₇ (run_add run₈ (run_add run₉
    last_step))))))))
  refine ⟨_, t, all, rfl, sys, (Regs.mode_congr pstate₉).trans high, ?_⟩
  -- memory, loop by loop
  have inTables : b.l1kpgt ∈ b.tables ∧ b.l2kpgt0 ∈ b.tables ∧ b.l2kpgt1 ∈ b.tables ∧ b.l1upgt ∈ b.tables ∧ b.l2upgt ∈ b.tables := by
    simp [Image.tables]
  obtain ⟨in₁, in₂, in₃, in₄, in₅⟩ := inTables
  have words₂ : Shown s₂.mem _ := (shown_self s.mem).strides (PIDX 2 (V2P b.kend - 1)).val (page _ in₅) (by omega) mem₂
  have words₃ := words₂.update (page _ in₄) (by decide) mem₃
  have words₅ := words₃.strides 447 (page _ in₂) (by omega) mem₅
  have words₇ := words₅.strides (PIDX 2 (V2P b.kend - 1 + VA_START)).val (page _ in₃) (by omega) mem₇
  have words₈ := (words₇.update (page _ in₁) (by decide) rfl).update (page _ in₁) (by decide) mem₈
  intro q small
  show pages s₉.mem q = _
  rw [mem₉, words₈ q small, ← written_eq linked zero]
  rfl

end Runs

end Aarch64Os.Kernel.Boot
