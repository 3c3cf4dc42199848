import Aarch64Os.Kernel.Boot

/-!
# Where the first tables lead (`kernel/boot.S`)

The hardware walks the tables that the code has built. It finds the code at its physical address, where
it still runs when the MMU comes on, and at its virtual one, and devices and nothing else besides.
-/

namespace Aarch64Os.Kernel.Boot
set_option autoImplicit false
open Base Base.Aarch64 Words

section Hardware
variable (word : Memory) (va : Nat)

/-- A walk through levels of tables, to an address and the index of its memory type: level 3 has pages, the others blocks. -/
def walk : List Nat → PageNo → Option (Nat × Nat)
  | [], _ => none
  | level :: rest, page =>
    let e := (word page (PIDX level va)).toNat
    let size := 2 ^ (39 - level * 9)
    let out := if e / 2 ^ 10 % 2 = 1 then some (e % 2 ^ 48 / size * size + va % size, e / 4 % 8) else none
    if e % 4 = 3 then
      if rest = [] then out else walk rest (e % 2 ^ 48 / PAGESIZE)
    else if e % 4 = 1 ∧ rest ≠ [] then out else none

/-- What an address means to a core, with the type of its memory: the granule is 4 KB, and tables begin at level 1. -/
def translate (sys : SysReg → Word) : Option (Nat × Nat) :=
  let type (place : Nat × Nat) : Nat × Nat := (place.1, (sys .mair_el1).toNat / 2 ^ (8 * place.2) % 256)
  let tcr := (sys .tcr_el1).toNat
  if (sys .sctlr_el1).toNat % 2 = 0 then some (va, 0)
  else if va < 2 ^ (64 - tcr % 64) then (walk word va [1, 2, 3] ((sys .ttbr0_el1).toNat % 2 ^ 48 / PAGESIZE)).map type
  else if 2 ^ 64 - 2 ^ (64 - tcr / 2 ^ 16 % 64) ≤ va then (walk word va [1, 2, 3] ((sys .ttbr1_el1).toNat % 2 ^ 48 / PAGESIZE)).map type
  else none

end Hardware

/-- The address space of the kernel before `kpgt_init`: RAM twice, up to the end of its last section, and devices. -/
def space (b : Image) (va : Nat) : Option (Nat × Nat) :=
  if PKERNBASE ≤ va ∧ va < V2P (ksecend b.kend) then some (va, 0x44)
  else if 0x8000000 + VA_START ≤ va ∧ va < KERNBASE then some (V2P va, 0)
  else if KERNBASE ≤ va ∧ va < ksecend b.kend then some (V2P va, 0x44)
  else none

section Entries
variable {i : Fin 512} {j : Nat} {e : Word} {words : Fin 512 → Word}

/-- An entry of a loop. -/
theorem l2pgtLoop_at (left : Nat) : ∀ {idx : Nat} {e : Word} {words : Fin 512 → Word}, idx + left ≤ 512 →
    l2pgtLoop left idx e words i = if idx ≤ i.val ∧ i.val < idx + left then e + BitVec.ofNat 64 ((i.val - idx) * 0x200000) else words i := by
  induction left with
  | zero =>
    intro idx e words le
    rw [if_neg (by omega)]
    rfl
  | succ left ih =>
    intro idx e words le
    rw [l2pgtLoop, ih (by omega)]
    by_cases here : i = Fin.ofNat 512 idx
    · subst here
      have val : (Fin.ofNat 512 idx).val = idx := by
        rw [Fin.val_ofNat, Nat.mod_eq_of_lt (by omega)]
      rw [val, if_neg (by omega), if_pos (by omega), Function.update_self, Nat.sub_self, Nat.zero_mul]
      exact (BitVec.add_zero e).symm
    · have ne : i.val ≠ idx := by
        intro eq
        apply here
        apply Fin.ext
        rw [Fin.val_ofNat, Nat.mod_eq_of_lt (by omega), eq]
      rw [Function.update_of_ne here]
      by_cases inside : idx ≤ i.val ∧ i.val < idx + (left + 1)
      · have next : i.val - idx = i.val - (idx + 1) + 1 := by omega
        have sum : BitVec.ofNat 64 ((i.val - (idx + 1)) * 0x200000 + 0x200000) = BitVec.ofNat 64 ((i.val - (idx + 1)) * 0x200000) + 0x200000#64 :=
          BitVec.ofNat_add _ _
        rw [if_pos inside, if_pos (by omega), next, Nat.add_mul, Nat.one_mul, sum, BitVec.add_assoc]
        exact congrArg (e + ·) (BitVec.add_comm ..)
      · rw [if_neg inside, if_neg (by omega)]

end Entries

section Walks
variable {word : Memory} {root : PageNo} {page va base attr level : Nat} {rest : List Nat}

theorem address_page (small : page < 2 ^ 36) : (address page).toNat % 2 ^ 48 / PAGESIZE = page := by
  unfold address
  rw [BitVec.toNat_ofNat]
  simp only [PAGESIZE]
  omega

/-- A page with attributes. -/
theorem address_or {w : Word} (small : page < 2 ^ 36) (low : w.toNat < PAGESIZE) : (address page ||| w).toNat = page * PAGESIZE + w.toNat := by
  have place : (address page).toNat = page * PAGESIZE := by
    unfold address
    rw [BitVec.toNat_ofNat]
    exact Nat.mod_eq_of_lt (by simp only [PAGESIZE]; omega)
  have low' : w.toNat < 2 ^ 12 := low
  have sum := Nat.two_pow_add_eq_or_of_lt low' page
  rw [BitVec.toNat_or, place, Nat.mul_comm, show PAGESIZE = 2 ^ 12 from rfl, ← sum]

/-- To the next table. -/
theorem walk_table (entry : word root (PIDX level va) = address page ||| (PTE_TABLE ||| PTE_VALID)) (small : page < 2 ^ 36) (more : rest ≠ []) :
    walk word va (level :: rest) root = walk word va rest page := by
  have value : (address page ||| (PTE_TABLE ||| PTE_VALID)).toNat = page * PAGESIZE + 3 := address_or small (by decide)
  have table : (page * PAGESIZE + 3) % 4 = 3 := by
    simp only [PAGESIZE]
    omega
  have next : (page * PAGESIZE + 3) % 2 ^ 48 / PAGESIZE = page := by
    simp only [PAGESIZE]
    omega
  rw [walk, entry, value]
  simp only [if_pos table, if_neg more, next]

/-- Nothing there. -/
theorem walk_zero (entry : word page (PIDX level va) = 0) : walk word va (level :: rest) page = none := by
  rw [walk, entry]
  rfl

/-- A block of 2 MB. -/
theorem walk_block (entry : (word page (PIDX 2 va)).toNat = base + attr) (aligned : base % 2 ^ 21 = 0) (small : base < 2 ^ 48)
    (kind : attr = 0x401 ∨ attr = 0x405) : walk word va [2, 3] page = some (base + va % 2 ^ 21, attr / 4 % 8) := by
  have block : (base + attr) % 4 = 1 ∧ (base + attr) / 2 ^ 10 % 2 = 1 ∧ (base + attr) % 2 ^ 48 / 2 ^ 21 * 2 ^ 21 = base ∧
      (base + attr) / 4 % 8 = attr / 4 % 8 := by
    rcases kind with rfl | rfl
    · omega
    · omega
  obtain ⟨one, flag, place, index⟩ := block
  rw [walk, entry]
  simp only [one, flag, index, if_true]
  norm_num at place ⊢
  exact place

end Walks

/-- The tables of physical memory; the last section of the kernel is that of index `k`. -/
structure Low (b : Image) (word : Memory) (k : Nat) : Prop where
  l1upgt : word b.l1upgt = Function.update (fun _ => 0) 1 (PTE_TABLE ||| PTE_VALID ||| address b.l2upgt)
  l2upgt : word b.l2upgt = l2pgtLoop (k + 1) 0 (0x40000000#64 ||| (PTE_AF ||| PTE_NORMAL ||| PTE_VALID)) fun _ => 0

/-- All five. -/
structure Built (b : Image) (word : Memory) (k : Nat) : Prop extends Low b word k where
  l1kpgt : word b.l1kpgt = Function.update (Function.update (fun _ => 0) 0 (address b.l2kpgt0 ||| (PTE_TABLE ||| PTE_VALID))) 1
    (address b.l2kpgt1 ||| (PTE_TABLE ||| PTE_VALID))
  l2kpgt0 : word b.l2kpgt0 = l2pgtLoop 448 64 (0x8000000#64 ||| (PTE_AF ||| PTE_VALID)) fun _ => 0
  l2kpgt1 : word b.l2kpgt1 = l2pgtLoop (k + 1) 0 (0x40000000#64 ||| (PTE_AF ||| PTE_NORMAL ||| PTE_VALID)) fun _ => 0

section Spaces
variable {b : Image} {word : Memory} {k va : Nat}

/-- Where the kernel ends. -/
theorem Image.Linked.sections (h : b.Linked) : ∃ k < 128, (PIDX 2 (V2P b.kend - 1)).val = k ∧ (PIDX 2 (V2P b.kend - 1 + VA_START)).val = k ∧
    V2P (ksecend b.kend) = PKERNBASE + (k + 1) * 2 ^ 21 ∧ ksecend b.kend = KERNBASE + (k + 1) * 2 ^ 21 := by
  obtain ⟨n, above, below, end_⟩ := h.kernel.kend_page
  have phys : V2P b.kend = n * PAGESIZE := by
    rw [end_, V2P]
    omega
  refine ⟨(n * 4096 - 1) / 2 ^ 21 - 512, by omega, ?_, ?_, ?_⟩
  · rw [phys]
    show (n * 4096 - 1) / 2 ^ 21 % 512 = _
    omega
  · rw [phys]
    show (n * 4096 - 1 + VA_START) / 2 ^ 21 % 512 = _
    simp only [VA_START]
    omega
  · have sec : ksecend b.kend = KERNBASE + ((n * 4096 - 1) / 2 ^ 21 - 512 + 1) * 2 ^ 21 := by
      rw [end_, ksecend]
      simp only [SECTIONSIZE, U64, KERNBASE, PKERNBASE, VA_START, PAGESIZE]
      omega
    refine ⟨?_, sec⟩
    rw [sec, V2P, KERNBASE]
    omega

/-- An entry of a loop from 0, and of the one for devices. -/
theorem blocks_at (i : Fin 512) (left idx : Nat) (w : Word) (le : idx + left ≤ 512) (room : w.toNat + 512 * 0x200000 < 2 ^ 64) :
    (l2pgtLoop left idx w (fun _ => 0) i).toNat = if idx ≤ i.val ∧ i.val < idx + left then w.toNat + (i.val - idx) * 0x200000 else 0 := by
  have lt := i.isLt
  rw [l2pgtLoop_at left le]
  by_cases inside : idx ≤ i.val ∧ i.val < idx + left
  · rw [if_pos inside, if_pos inside, BitVec.toNat_add, BitVec.toNat_ofNat]
    omega
  · rw [if_neg inside, if_neg inside]
    rfl

/-- Physical memory, up to the end of the last section of the kernel. -/
theorem Low.walk_upgt (built : Low b word k) (small : ∀ page ∈ b.tables, page < 2 ^ 36) (lt : k < 128) (low : va < 2 ^ 39) :
    walk word va [1, 2, 3] b.l1upgt = if PKERNBASE ≤ va ∧ va < PKERNBASE + (k + 1) * 2 ^ 21 then some (va, 1) else none := by
  have index : (PIDX 1 va).val = va / 2 ^ 30 := by
    show va / 2 ^ 30 % 512 = _
    omega
  by_cases one : va / 2 ^ 30 = 1
  · have first : PIDX 1 va = 1 := Fin.ext (index.trans one)
    have entry : word b.l1upgt (PIDX 1 va) = address b.l2upgt ||| (PTE_TABLE ||| PTE_VALID) := by
      rw [built.l1upgt, first, Function.update_self]
      exact BitVec.or_comm ..
    rw [walk_table entry (small _ (by simp [Image.tables])) (by simp)]
    have index' : (PIDX 2 va).val = (va - PKERNBASE) / 2 ^ 21 := by
      show va / 2 ^ 21 % 512 = _
      simp only [PKERNBASE]
      omega
    have value := blocks_at (PIDX 2 va) (k + 1) 0 (0x40000000#64 ||| (PTE_AF ||| PTE_NORMAL ||| PTE_VALID)) (by omega) (by decide)
    rw [← built.l2upgt, index', show (0x40000000#64 ||| (PTE_AF ||| PTE_NORMAL ||| PTE_VALID)).toNat = 0x40000405 by decide] at value
    unfold PKERNBASE at value ⊢
    by_cases inside : va < 0x40000000 + (k + 1) * 2 ^ 21
    · rw [if_pos (by omega)] at value
      have block : walk word va [2, 3] b.l2upgt = some (va / 2 ^ 21 * 2 ^ 21 + va % 2 ^ 21, 0x405 / 4 % 8) :=
        walk_block (value.trans (by omega)) (by omega) (by omega) (.inr rfl)
      rw [if_pos (by omega), block, Nat.div_add_mod']
    · rw [if_neg (by omega)] at value
      rw [if_neg (by omega)]
      exact walk_zero (BitVec.eq_of_toNat_eq value)
  · have entry : word b.l1upgt (PIDX 1 va) = 0 := by
      rw [built.l1upgt, Function.update_of_ne]
      intro eq
      rw [eq] at index
      exact one index.symm
    rw [walk_zero entry, if_neg]
    simp only [PKERNBASE]
    omega

/-- Devices, and the kernel. -/
theorem Built.walk_kpgt (built : Built b word k) (small : ∀ page ∈ b.tables, page < 2 ^ 36) (lt : k < 128) (high : VA_START ≤ va) (top : va < 2 ^ 64) :
    walk word va [1, 2, 3] b.l1kpgt = if 0x8000000 + VA_START ≤ va ∧ va < KERNBASE then some (V2P va, 0)
      else if KERNBASE ≤ va ∧ va < KERNBASE + (k + 1) * 2 ^ 21 then some (V2P va, 1) else none := by
  obtain ⟨pa, rfl⟩ := Nat.exists_eq_add_of_le high
  have phys : V2P (VA_START + pa) = pa := by
    rw [V2P]
    omega
  have index : (PIDX 1 (VA_START + pa)).val = pa / 2 ^ 30 := by
    show (VA_START + pa) / 2 ^ 30 % 512 = _
    simp only [VA_START] at top ⊢
    omega
  have index' : (PIDX 2 (VA_START + pa)).val = pa / 2 ^ 21 % 512 := by
    show (VA_START + pa) / 2 ^ 21 % 512 = _
    simp only [VA_START] at top ⊢
    omega
  have offset : (VA_START + pa) % 2 ^ 21 = pa % 2 ^ 21 := by
    simp only [VA_START] at top ⊢
    omega
  have bounds : (0x8000000 + VA_START ≤ VA_START + pa ∧ VA_START + pa < KERNBASE ↔ 0x8000000 ≤ pa ∧ pa < 0x40000000) ∧
      (KERNBASE ≤ VA_START + pa ∧ VA_START + pa < KERNBASE + (k + 1) * 2 ^ 21 ↔ 0x40000000 ≤ pa ∧ pa < 0x40000000 + (k + 1) * 2 ^ 21) := by
    simp only [KERNBASE, PKERNBASE]
    omega
  simp only [bounds.1, bounds.2, phys]
  rcases Nat.lt_or_ge pa (2 ^ 31) with below | above
  · rcases Nat.lt_or_ge pa (2 ^ 30) with device | ram
    · have first : PIDX 1 (VA_START + pa) = 0 := Fin.ext (index.trans (by show pa / 2 ^ 30 = 0; omega))
      have entry : word b.l1kpgt (PIDX 1 (VA_START + pa)) = address b.l2kpgt0 ||| (PTE_TABLE ||| PTE_VALID) := by
        rw [built.l1kpgt, first, Function.update_of_ne (by decide), Function.update_self]
      rw [walk_table entry (small _ (by simp [Image.tables])) (by simp)]
      have value := blocks_at (PIDX 2 (VA_START + pa)) 448 64 (0x8000000#64 ||| (PTE_AF ||| PTE_VALID)) (by omega) (by decide)
      rw [← built.l2kpgt0, index', show (0x8000000#64 ||| (PTE_AF ||| PTE_VALID)).toNat = 0x8000401 by decide] at value
      by_cases inside : 0x8000000 ≤ pa
      · rw [if_pos (by omega)] at value
        have block : walk word (VA_START + pa) [2, 3] b.l2kpgt0 = some (pa / 2 ^ 21 * 2 ^ 21 + (VA_START + pa) % 2 ^ 21, 0x401 / 4 % 8) :=
          walk_block (value.trans (by omega)) (by omega) (by omega) (.inl rfl)
        rw [if_pos (by omega), block, offset, Nat.div_add_mod']
      · rw [if_neg (by omega)] at value
        rw [if_neg (by omega), if_neg (by omega)]
        exact walk_zero (BitVec.eq_of_toNat_eq value)
    · have first : PIDX 1 (VA_START + pa) = 1 := Fin.ext (index.trans (by show pa / 2 ^ 30 = 1; omega))
      have entry : word b.l1kpgt (PIDX 1 (VA_START + pa)) = address b.l2kpgt1 ||| (PTE_TABLE ||| PTE_VALID) := by
        rw [built.l1kpgt, first, Function.update_self]
      rw [walk_table entry (small _ (by simp [Image.tables])) (by simp)]
      have value := blocks_at (PIDX 2 (VA_START + pa)) (k + 1) 0 (0x40000000#64 ||| (PTE_AF ||| PTE_NORMAL ||| PTE_VALID)) (by omega) (by decide)
      rw [← built.l2kpgt1, index', show (0x40000000#64 ||| (PTE_AF ||| PTE_NORMAL ||| PTE_VALID)).toNat = 0x40000405 by decide] at value
      by_cases inside : pa < 0x40000000 + (k + 1) * 2 ^ 21
      · rw [if_pos (by omega)] at value
        have block : walk word (VA_START + pa) [2, 3] b.l2kpgt1 = some (pa / 2 ^ 21 * 2 ^ 21 + (VA_START + pa) % 2 ^ 21, 0x405 / 4 % 8) :=
          walk_block (value.trans (by omega)) (by omega) (by omega) (.inr rfl)
        rw [if_neg (by omega), if_pos (by omega), block, offset, Nat.div_add_mod']
      · rw [if_neg (by omega)] at value
        rw [if_neg (by omega), if_neg (by omega)]
        exact walk_zero (BitVec.eq_of_toNat_eq value)
  · have entry : word b.l1kpgt (PIDX 1 (VA_START + pa)) = 0 := by
      rw [built.l1kpgt, Function.update_of_ne, Function.update_of_ne]
      · intro eq
        have value := congrArg Fin.val eq
        rw [index] at value
        change pa / 2 ^ 30 = 0 at value
        omega
      · intro eq
        have value := congrArg Fin.val eq
        rw [index] at value
        change pa / 2 ^ 30 = 1 at value
        omega
    rw [walk_zero entry, if_neg (by omega), if_neg (by omega)]

/-- What the code leaves in its pages. -/
theorem low_of_tables (linked : b.Linked) {before : Memory} (after : ∀ page ∈ [b.l1upgt, b.l2upgt], word page = bootUpgt b before page) :
    Low b word (PIDX 2 (V2P b.kend - 1)).val := by
  have distinct := linked.distinct
  simp only [List.nodup_cons, List.mem_cons, List.not_mem_nil, or_false, not_or] at distinct
  have ne : b.l2upgt ≠ b.l1upgt := Ne.symm distinct.2.2.2.1
  constructor
  · rw [after _ (by simp), bootUpgt, Function.update_self]
  · rw [after _ (by simp), bootUpgt, Function.update_of_ne ne, Function.update_self]

theorem built_of_tables (linked : b.Linked) {before : Memory}
    (after : ∀ page ∈ b.tables, word page = bootUpgt b (bootPgt b.kend b.l1kpgt b.l2kpgt0 b.l2kpgt1 before) page) :
    Built b word (PIDX 2 (V2P b.kend - 1)).val := by
  obtain ⟨k, -, index, index', -⟩ := linked.sections
  have low := low_of_tables linked fun page mem => after page (by
    simp only [Image.tables, List.mem_cons, List.not_mem_nil, or_false] at mem ⊢
    tauto)
  have distinct := linked.distinct
  simp only [List.nodup_cons, List.mem_cons, List.not_mem_nil, or_false, not_or] at distinct
  obtain ⟨⟨d₁₂, d₁₃, d₁₄, d₁₅⟩, ⟨d₂₃, d₂₄, d₂₅⟩, ⟨d₃₄, d₃₅⟩, -, -⟩ := distinct
  refine ⟨low, ?_, ?_, ?_⟩
  · rw [after _ (by simp [Image.tables])]
    simp [bootUpgt, bootPgt, *]
    rfl
  · rw [after _ (by simp [Image.tables])]
    simp [bootUpgt, bootPgt, Ne.symm d₁₂, *]
    exact mapSections_devices
  · rw [after _ (by simp [Image.tables])]
    simp [bootUpgt, bootPgt, Ne.symm d₁₃, *]
    rw [mapSections_kernel, index']
    rfl

/-- A type of memory, by its index. -/
def typed (place : Nat × Nat) : Nat × Nat := (place.1, Image.mair.toNat / 2 ^ (8 * place.2) % 256)

theorem translate_enabled (linked : b.Linked) (sys : SysReg → Word) : translate word va (enabled b sys) =
    if va < 2 ^ 39 then (walk word va [1, 2, 3] b.l1upgt).map typed
    else if VA_START ≤ va then (walk word va [1, 2, 3] b.l1kpgt).map typed else none := by
  have on : ¬(sys .sctlr_el1 ||| 1).toNat % 2 = 0 := by
    have odd : ((sys .sctlr_el1).toNat ||| 1) % 2 = 1 := Nat.or_mod_two_eq_one.2 (.inr rfl)
    rw [BitVec.toNat_or, show (1 : Word).toNat = 1 from rfl, odd]
    decide
  have roots : (address b.l1upgt).toNat % 2 ^ 48 / PAGESIZE = b.l1upgt ∧ (address b.l1kpgt).toNat % 2 ^ 48 / PAGESIZE = b.l1kpgt :=
    ⟨address_page (linked.small _ (by simp [Image.tables])), address_page (linked.small _ (by simp [Image.tables]))⟩
  have halves : 2 ^ (64 - Image.tcr.toNat % 64) = 2 ^ 39 ∧ 2 ^ 64 - 2 ^ (64 - Image.tcr.toNat / 2 ^ 16 % 64) = VA_START := by decide
  unfold translate
  show (if (sys .sctlr_el1 ||| 1).toNat % 2 = 0 then some (va, 0)
    else if va < 2 ^ (64 - Image.tcr.toNat % 64) then (walk word va [1, 2, 3] ((address b.l1upgt).toNat % 2 ^ 48 / PAGESIZE)).map typed
    else if 2 ^ 64 - 2 ^ (64 - Image.tcr.toNat / 2 ^ 16 % 64) ≤ va then (walk word va [1, 2, 3] ((address b.l1kpgt).toNat % 2 ^ 48 / PAGESIZE)).map typed
    else none) = _
  rw [if_neg on, halves.1, halves.2, roots.1, roots.2]

theorem typed_eq (place : Nat) : typed (place, 0) = (place, 0) ∧ typed (place, 1) = (place, 0x44) := by
  have types : Image.mair.toNat / 2 ^ (8 * 0) % 256 = 0 ∧ Image.mair.toNat / 2 ^ (8 * 1) % 256 = 0x44 := by decide
  rw [typed, typed, types.1, types.2]
  exact ⟨rfl, rfl⟩

/-- The low half, as each core needs it when it turns the MMU on. -/
theorem translate_low (linked : b.Linked) (low : Low b word (PIDX 2 (V2P b.kend - 1)).val) (sys : SysReg → Word) (user : va < 2 ^ 39) :
    translate word va (enabled b sys) = space b va := by
  obtain ⟨k, lt, index, -, phys, -⟩ := linked.sections
  rw [index] at low
  have below : va < VA_START := lt_of_lt_of_le user (by decide)
  rw [translate_enabled linked, if_pos user, space, phys, low.walk_upgt linked.small lt user]
  by_cases inside : PKERNBASE ≤ va ∧ va < PKERNBASE + (k + 1) * 2 ^ 21
  · rw [if_pos inside, if_pos inside, Option.map_some, (typed_eq va).2]
  · rw [if_neg inside, if_neg inside, if_neg, if_neg, Option.map_none]
    · unfold KERNBASE
      omega
    · omega

/-- **The address space** that the tables give. -/
theorem translate_eq (linked : b.Linked) (built : Built b word (PIDX 2 (V2P b.kend - 1)).val) (sys : SysReg → Word) (top : va < 2 ^ 64) :
    translate word va (enabled b sys) = space b va := by
  rcases Nat.lt_or_ge va (2 ^ 39) with low | above
  · exact translate_low linked built.toLow sys low
  obtain ⟨k, lt, index, -, phys, virt⟩ := linked.sections
  rw [index] at built
  have out : ¬(PKERNBASE ≤ va ∧ va < PKERNBASE + (k + 1) * 2 ^ 21) := by
    simp only [PKERNBASE]
    omega
  rw [translate_enabled linked, if_neg (by omega), space, phys, virt, if_neg out]
  by_cases high : VA_START ≤ va
  · rw [if_pos high, built.walk_kpgt linked.small lt high top]
    by_cases device : 0x8000000 + VA_START ≤ va ∧ va < KERNBASE
    · rw [if_pos device, if_pos device, Option.map_some, (typed_eq _).1]
    · rw [if_neg device, if_neg device]
      by_cases kernel : KERNBASE ≤ va ∧ va < KERNBASE + (k + 1) * 2 ^ 21
      · rw [if_pos kernel, if_pos kernel, Option.map_some, (typed_eq _).2]
      · rw [if_neg kernel, if_neg kernel, Option.map_none]
  · rw [if_neg high, if_neg, if_neg]
    · unfold KERNBASE
      omega
    · omega

end Spaces

/-- What a core sees at virtual addresses. -/
def seen (s : State) : State :=
  { s with mem := fun va => ((translate (pages s.mem) va.toNat s.sys).elim 0 fun place => s.mem (BitVec.ofNat 64 place.1)) }

/-- The number of a core. -/
def cpuid (s : State) : Word := s.sys .mpidr_el1 &&& 0xff

/-- A core at `main`, on its own stack. -/
structure AtMain (b : Image) (s t : State) : Prop where
  pc : t.pc = b.main
  mode : t.mode = EL1h
  vbar : t.sys .vbar_el1 = b.vectortable
  sp : t.sp_el1 = b.kstack + (cpuid s + 1) * 4096
  sys : ∀ r, r ≠ .vbar_el1 → t.sys r = s.sys r

section Cores
variable {b : Image} {code : Code} {a : Word} {s : State}

/-- Where all cores go on. -/
theorem primaryOps_runs (mode : s.mode = EL1h) : ∃ t, Op.runs b.primaryOps s = some t ∧ t.mode = EL1h ∧ t.sys .vbar_el1 = b.vectortable ∧
    t.sp_el1 = b.kstack + (cpuid s + 1) * 4096 ∧ (∀ r, r ≠ .vbar_el1 → t.sys r = s.sys r) ∧ t.mem = s.mem := by
  let s₁ : State := ((s.setX 0 b.vectortable).next.setSys .vbar_el1 b.vectortable).next
  have written := setting_runs .vbar_el1 0 b.vectortable mode
  let s₂ : State := (s₁.setX 0 (s₁.sys .mpidr_el1)).next
  have read : Op.exec (.mrs (.x 0) .mpidr_el1) s₁ = some s₂ := exec_mrs .mpidr_el1 0 mode
  let s₃ : State := (s₂.setX 0 (s₂.x 0 &&& 0xff)).next
  let s₄ : State := (s₃.setX 0 (s₃.x 0 + 1)).next
  let s₅ : State := (s₄.setX 1 4096).next
  let s₆ : State := (s₅.setX 0 (s₅.x 0 * s₅.x 1)).next
  let s₇ : State := (s₆.setX 2 b.kstack).next
  let s₈ : State := (s₇.setX 2 (s₇.x 2 + s₇.x 0)).next
  let s₉ : State := { s₈ with sp_el1 := s₈.x 2, pc := s₈.pc + 4 }
  have moved : Op.exec (.mov .sp (.x 2)) s₈ = some s₉ := by
    have high : s₈.mode = EL1h := mode
    show some (s₈.set .sp (s₈.x 2)).next = _
    rw [State.set_sp high]
    rfl
  have last : Op.runs [.movImm (.x 2) b.kstack, .add (.x 2) (.x 2) (.x 0), .mov .sp (.x 2)] s₆ = some s₉ :=
    Op.runs_cons (t := s₇) rfl (Op.runs_cons (t := s₈) rfl (Op.runs_cons moved rfl))
  have middle : Op.runs [.andImm (.x 0) (.x 0) 0xff, .addImm (.x 0) (.x 0) 1, .movImm (.x 1) 4096, .mul (.x 0) (.x 0) (.x 1)] s₂ = some s₆ :=
    Op.runs_cons (t := s₃) rfl (Op.runs_cons (t := s₄) rfl (Op.runs_cons (t := s₅) rfl (Op.runs_cons (t := s₆) rfl rfl)))
  have stack : s₈.x 2 = b.kstack + (cpuid s + 1) * 4096 := rfl
  refine ⟨s₉, Op.runs_append written (Op.runs_cons read (Op.runs_append middle last)), mode, rfl, stack, ?_, rfl⟩
  intro r ne
  exact Function.update_of_ne ne ..

/-- From there to `main`. -/
theorem primaryEntry_runs (text : code.At a (b.text a)) (pc : s.pc = label a 112) (mode : s.mode = EL1h) :
    ∃ t, run code 11 s = some t ∧ AtMain b s t ∧ t.mem = s.mem := by
  obtain ⟨u, ran, mode', vbar, sp, sys, mem⟩ := primaryOps_runs (b := b) mode
  obtain ⟨run₁, pc₁⟩ := run_part (i := 112) text rfl pc ran
  let t : State := { u with pc := b.main }
  have branch : step code u = some t := by
    have fetch : code u.pc = some (.b b.main) := fetch_part (i := 122) text rfl pc₁
    rw [step, fetch]
    rfl
  have last : run code 1 u = some t := run_succ branch rfl
  exact ⟨t, run_add run₁ last, ⟨rfl, mode', vbar, sp, sys⟩, mem⟩

theorem Image.Linked.bss_small (linked : b.Linked) : b.bssSize < 2 ^ 32 ∧ b.bss_start < 2 ^ 64 ∧ b.bss_start % 8 = 0 := by
  obtain ⟨page, le, le'⟩ := linked.bss
  have below := linked.kernel.below
  have ram := (linked.inside b.l1upgt (by simp)).1
  have above := linked.before b.l1upgt (by simp)
  have top : PHYMEMEND = VA_START + 0x50000000 := by decide
  have room : VA_START + 0x50000000 < 2 ^ 64 := by decide
  have size : (b.bss_end - b.bss_start) / 2 ^ 3 < 2 ^ 32 := by omega
  refine ⟨?_, by omega, ?_⟩
  · rw [Image.bssSize, Nat.shiftRight_eq_div_pow]
    exact size
  · simp only [PAGESIZE] at page
    omega

/-- The first core clears `.bss` before. -/
theorem clear_runs (linked : b.Linked) (text : code.At a (b.text a)) (pc : s.pc = label a 92) :
    ∃ n t, run code n s = some t ∧ t.pc = label a 112 ∧ t.mode = s.mode ∧ t.sys = s.sys ∧
      t.mem = s.mem.put (BitVec.ofNat 64 b.bss_start) (List.replicate b.bssSize 0) := by
  obtain ⟨size, start, page⟩ := linked.bss_small
  let ops : List Op := [.movImm (.x 1) (BitVec.ofNat 64 b.bss_start), .movImm (.x 2) (BitVec.ofNat 64 (b.bssSize % 2 ^ 32))]
  let u : State := ((s.setX 1 (BitVec.ofNat 64 b.bss_start)).next.setX 2 (BitVec.ofNat 64 (b.bssSize % 2 ^ 32))).next
  have ran : Op.runs ops s = some u := rfl
  obtain ⟨run₁, pc₁⟩ := run_part (i := 92) text rfl pc ran
  have loop : code.At u.pc (clearLoop 1 2 u.pc) := by
    rw [pc₁]
    exact text.part 94 (clearLoop 1 2 (label a 94)) rfl
  have counted : (u.x 2).setWidth 32 = BitVec.ofNat 32 b.bssSize := by
    show (BitVec.ofNat 64 (b.bssSize % 2 ^ 32)).setWidth 32 = _
    rw [Nat.mod_eq_of_lt size]
    exact BitVec.setWidth_ofNat_of_le (by decide) _
  have aligned : (u.x 1).toNat % 8 = 0 := by
    show (BitVec.ofNat 64 b.bss_start).toNat % 8 = 0
    rw [BitVec.toNat_ofNat, Nat.mod_eq_of_lt start, page]
  obtain ⟨v, run₂, kept, mem, pc₂⟩ := run_clearLoop b.bssSize loop (by decide) counted size aligned
  have place : v.pc = label a 98 := by
    rw [pc₂, pc₁]
    exact BitVec.add_assoc ..
  let w : State := { v with pc := label a 112 }
  have branch : step code v = some w := by
    have fetch : code v.pc = some (.b (label a 112)) := fetch_part text rfl place
    rw [step, fetch]
    rfl
  have last : run code 1 v = some w := run_succ branch rfl
  exact ⟨_, w, run_add run₁ (run_add run₂ last), rfl, kept.mode, kept.sys, mem⟩

/-- Where a core goes first. -/
theorem start_runs (text : code.At a (b.text a)) (pc : s.pc = a) (mode : s.mode = EL1h) :
    ∃ n t, run code n s = some t ∧ t.pc = (if cpuid s = 0 then label a 4 else label a 99) ∧ t.mode = EL1h ∧ t.sys = s.sys ∧ t.mem = s.mem := by
  let u : State := (s.setX 1 (s.sys .mpidr_el1)).next
  let v : State := (u.setX 1 (u.x 1 &&& 0xff)).next
  have read : Op.exec (.mrs (.x 1) .mpidr_el1) s = some u := exec_mrs .mpidr_el1 1 mode
  have ran : Op.runs [.mrs (.x 1) .mpidr_el1, .andImm (.x 1) (.x 1) 0xff] s = some v := Op.runs_cons read (Op.runs_cons rfl rfl)
  have here : s.pc = label a 0 := by
    rw [pc]
    exact (BitVec.add_zero a).symm
  obtain ⟨run₁, pc₁⟩ := run_part (i := 0) text rfl here ran
  have fetch : code v.pc = some (.cbz (.x 1) (label a 4)) := fetch_part (i := 2) text rfl pc₁
  have number : v.get (.x 1) = cpuid s := rfl
  by_cases first : cpuid s = 0
  · let t : State := { v with pc := label a 4 }
    have branch : step code v = some t := by
      rw [step, fetch]
      show some (if v.get (.x 1) = 0 then t else v.next) = _
      rw [number, if_pos first]
    have last : run code 1 v = some t := run_succ branch rfl
    rw [if_pos first]
    exact ⟨_, t, run_add run₁ last, rfl, mode, rfl, rfl⟩
  · let t : State := { v.next with pc := label a 99 }
    have branch : step code v = some v.next := by
      rw [step, fetch]
      show some (if v.get (.x 1) = 0 then { v with pc := label a 4 } else v.next) = _
      rw [number, if_neg first]
    have place : v.next.pc = label a 3 := by
      show v.pc + 4 = label a 3
      rw [pc₁]
      exact BitVec.add_assoc ..
    have jump : step code v.next = some t := by
      have fetch' : code v.next.pc = some (.b (label a 99)) := fetch_part text rfl place
      rw [step, fetch']
      rfl
    have last : run code 2 v = some t := run_succ branch (run_succ jump rfl)
    rw [if_neg first]
    exact ⟨_, t, run_add run₁ last, rfl, mode, rfl, rfl⟩

/-- Other cores turn the MMU on. -/
theorem secondaryEntry_runs (text : code.At a (b.text a)) (pc : s.pc = label a 99) (mode : s.mode = EL1h) :
    ∃ n t, run code n s = some t ∧ t.pc = Image.primaryEntry ∧ t.mode = EL1h ∧ t.sys = enabled b s.sys ∧ t.mem = s.mem := by
  obtain ⟨u, ran, target, sys, mem, pstate⟩ := secondaryOps_runs b s mode
  obtain ⟨run₁, pc₁⟩ := run_part (i := 99) text rfl pc ran
  let t : State := { u with pc := Image.primaryEntry }
  have branch : step code u = some t := by
    have fetch : code u.pc = some (.br (.x 1)) := fetch_part (i := 111) text rfl pc₁
    rw [step, fetch]
    show some { u with pc := u.x 1 } = _
    rw [target]
  have last : run code 1 u = some t := run_succ branch rfl
  exact ⟨_, t, run_add run₁ last, rfl, (Regs.mode_congr pstate).trans mode, sys, mem⟩

/-- What the MMU does when it is on: the code is where it was, and the first core has mapped nothing else. -/
structure Mapped (b : Image) (s t : State) : Prop where
  sys : t.sys = enabled b s.sys
  low : ∀ va < 2 ^ 39, translate (pages t.mem) va t.sys = space b va
  tables : cpuid s = 0 → ∀ q < 2 ^ 52, pages t.mem q = bootUpgt b (bootPgt b.kend b.l1kpgt b.l2kpgt0 b.l2kpgt1 (pages s.mem)) q
  whole : cpuid s = 0 → ∀ va < 2 ^ 64, translate (pages t.mem) va t.sys = space b va

/-- An image, with all else in a section of 2 MB. -/
def smallImage : Image :=
  { kend := KERNBASE + 0x100000
    l1kpgt := 0x40080
    l2kpgt0 := 0x40081
    l2kpgt1 := 0x40082
    l1upgt := 0x40083
    l2upgt := 0x40084
    main := BitVec.ofNat 64 (KERNBASE + 0x2000)
    vectortable := BitVec.ofNat 64 (KERNBASE + 0x3000)
    bss_start := KERNBASE + 0x90000
    bss_end := KERNBASE + 0xa0000
    kstack := BitVec.ofNat 64 (KERNBASE + 0x98000) }

theorem smallImage_linked : smallImage.Linked where
  kernel := ⟨by decide, by decide, by decide, by decide, by decide⟩
  inside := by decide
  distinct := by decide
  before := by
    intro page mem
    simp only [List.mem_cons, List.not_mem_nil, or_false] at mem
    rcases mem with rfl | rfl | rfl | rfl | rfl
    all_goals decide
  bss := by decide

/-- A core behind reset, in empty memory. -/
def reset : State :=
  { x := fun _ => 0, sp_el1 := 0, sys := fun _ => 0, pstate := 0x3c5, pc := BitVec.ofNat 64 PKERNBASE, mem := fun _ => 0 }

/-- The code, where it has been loaded and where it has been linked. -/
def smallPieces : List (Nat × List Instr) :=
  [(PKERNBASE, smallImage.text (BitVec.ofNat 64 PKERNBASE)), (KERNBASE, smallImage.text (BitVec.ofNat 64 KERNBASE))]

end Cores

end Aarch64Os.Kernel.Boot
