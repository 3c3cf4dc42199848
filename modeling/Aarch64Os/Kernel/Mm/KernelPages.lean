import Aarch64Os.Kernel.Mm.Translation

/-!
# The page table of the kernel (`kernel/boot.S`, `kernel/kalloc.c`, `kernel/mm.c`)

`boot.S` maps the kernel by blocks of 2 MB. `kpgt_init` then maps all of RAM by pages, and a block is no
table to `pagewalk`: it takes a new one for each section. Until then the free pages are only those from
the end of the kernel to the end of its last section.
-/

namespace Aarch64Os.Kernel
set_option autoImplicit false
open Base

/-- `PKERNBASE`. -/
def PKERNBASE : Nat := 0x40000000

/-- `KERNBASE`. -/
def KERNBASE : Nat := PKERNBASE + VA_START

/-- `PHYMEMEND`. -/
def PHYMEMEND : Nat := KERNBASE + 256 * 1024 * 1024

/-- `SECTIONSIZE`. -/
def SECTIONSIZE : Nat := 2 * 1024 * 1024

/-- `V2P`. -/
def V2P (va : Nat) : Nat := va - VA_START

/-- `ksecend`. -/
def ksecend (kend : Nat) : Nat := (kend + SECTIONSIZE - 1) % U64 / SECTIONSIZE * SECTIONSIZE

namespace Words

/-- `l2pgt_loop0` and `l2pgt_loop1` of `boot.S`, with `left` entries to write. -/
def l2pgtLoop : Nat → Nat → BitVec 64 → (Fin 512 → BitVec 64) → Fin 512 → BitVec 64
  | 0, _, _, words => words
  | left + 1, idx, entry, words => l2pgtLoop left (idx + 1) (entry + 0x200000#64) (Function.update words (Fin.ofNat 512 idx) entry)

/-- The entries from the index of `start` to that of the last byte before `last`: the loop writes one at least. -/
def mapSections (start last : Nat) (attr : BitVec 64) : Fin 512 → BitVec 64 :=
  let idx := (PIDX 2 (start + VA_START)).val
  let end_ := (PIDX 2 (last + VA_START)).val
  l2pgtLoop (end_ - idx + 1) idx (BitVec.ofNat 64 start ||| attr) fun _ => 0#64

/-- The tables of `boot.S`, in memory. -/
def bootPgt (kend : Nat) (l1kpgt l2kpgt0 l2kpgt1 : PageNo) (word : Memory) : Memory :=
  let table (page : PageNo) : BitVec 64 := BitVec.ofNat 64 (page * PAGESIZE) ||| (PTE_TABLE ||| PTE_VALID)
  let idx := PIDX 1 (0x8000000 + VA_START)
  let word := Function.update word l2kpgt0 (mapSections 0x8000000 0x3fffffff (PTE_AF ||| PTE_VALID))
  let word := Function.update word l2kpgt1 (mapSections 0x40000000 (V2P kend - 1) (PTE_AF ||| PTE_NORMAL ||| PTE_VALID))
  Function.update word l1kpgt (Function.update (Function.update (fun _ => 0#64) idx (table l2kpgt0)) (idx + 1) (table l2kpgt1))

/-- The loop of `kalloc_init1` and `kalloc_init2`, of `left` rounds at most. -/
def freeRange (end_ : Nat) : Nat → Nat → RamM Unit
  | 0, _ => throw .hang
  | left + 1, p =>
    if p + PAGESIZE ≤ end_ then do
      kfree (V2P p / PAGESIZE)
      freeRange end_ left (p + PAGESIZE)
    else pure ()

/-- `kalloc_init1`. -/
def kallocInit1 (kend : Nat) : RamM Unit := do
  modify fun s => { s with kmem := { freelist := [], held := false } }
  freeRange (ksecend kend) ((ksecend kend - kend) / PAGESIZE + 1) kend

/-- `kpgt_init`. -/
def kpgtInit (l1kpgt : PageNo) (kend : Nat) : RamM Unit := do
  pagemap l1kpgt KERNBASE PKERNBASE (kend - KERNBASE) PTE_NORMAL
  pagemap l1kpgt kend (V2P kend) (PHYMEMEND - kend) (PTE_NORMAL ||| PTE_PXN ||| PTE_UXN)

end Words

section Sections
variable {t : PageTable} {attr : BitVec 64} {s : Kallocator} {a : Nat}

/-- Only the bits that the walk uses matter. -/
theorem PIDX_mod {va va' level : Nat} (same : va % 2 ^ 39 = va' % 2 ^ 39) (ge : 1 ≤ level) (le : level ≤ 3) : PIDX level va = PIDX level va' := by
  have low : ∀ x, x / 2 ^ (39 - level * 9) % 512 = x % 2 ^ 39 / 2 ^ (39 - level * 9) % 512 := by
    intro x
    interval_cases level
    · norm_num
      omega
    · norm_num
      omega
    · norm_num
      omega
  apply Fin.ext
  show va / 2 ^ (39 - level * 9) % 512 = va' / 2 ^ (39 - level * 9) % 512
  rw [low va, low va', same]

theorem pagewalkDeref_mod {va va' : Nat} (same : va % 2 ^ 39 = va' % 2 ^ 39) : pagewalkDeref t va = pagewalkDeref t va' := by
  unfold pagewalkDeref pagewalk
  rw [PIDX_mod same (by decide : 1 ≤ 1) (by decide), PIDX_mod same (by decide : 1 ≤ 2) (by decide)]

theorem mapPages_mod (attr : BitVec 64) (left : Nat) : ∀ {t : PageTable} {va va' pa : Nat}, va % 2 ^ 39 = va' % 2 ^ 39 →
    mapPages attr left t va pa = mapPages attr left t va' pa := by
  induction left with
  | zero => exact fun _ => rfl
  | succ left ih =>
    intro t va va' pa same
    have next : (va + PAGESIZE) % U64 % 2 ^ 39 = (va' + PAGESIZE) % U64 % 2 ^ 39 := by
      simp only [U64, PAGESIZE]
      omega
    have pte : ∀ t : PageTable, t.pte va = t.pte va' := by
      intro t
      unfold PageTable.pte
      rw [PIDX_mod same (by decide : 1 ≤ 1) (by decide), PIDX_mod same (by decide : 1 ≤ 2) (by decide),
        PIDX_mod same (by decide : 1 ≤ 3) (by decide)]
    have set : ∀ (t : PageTable) (x : Option Pte), t.setPte va x = t.setPte va' x := by
      intro t x
      unfold PageTable.setPte
      rw [PIDX_mod same (by decide : 1 ≤ 1) (by decide), PIDX_mod same (by decide : 1 ≤ 2) (by decide),
        PIDX_mod same (by decide : 1 ≤ 3) (by decide)]
    have rest := fun (t : PageTable) (pa : Nat) => @ih t _ _ pa next
    unfold mapPages
    simp only [pagewalkDeref_mod same, pte, set, rest]

/-- The sections that begin before page `n`. -/
def sections (n : Nat) : Nat := (n + 511) / 512

/-- The pages of RAM before page `a` are mapped: so their sections have tables, and the others have none. -/
structure Remapped (t : PageTable) (a : Nat) : Prop where
  missing : ∀ n, 0x40000 ≤ n → n < 0x50000 → t.missing (n * PAGESIZE) = if n < sections a * 512 then 0 else 1
  clear : ∀ n, a ≤ n → n < 0x50000 → t.pte (n * PAGESIZE) = none

theorem PIDX_ram {n : Nat} (ge : 0x40000 ≤ n) (lt : n < 0x50000) : PIDX 1 (n * PAGESIZE) = 1 ∧ (PIDX 2 (n * PAGESIZE)).val = n / 512 % 512 := by
  constructor
  · apply Fin.ext
    show n * PAGESIZE / 2 ^ (39 - 1 * 9) % 512 = 1
    norm_num
    omega
  · show n * PAGESIZE / 2 ^ (39 - 2 * 9) % 512 = n / 512 % 512
    norm_num
    omega

/-- The walk to page `a` takes a table if it is the first of its section. -/
theorem Remapped.walked (h : Remapped t a) (ge : 0x40000 ≤ a) (lt : a < 0x50000) {t' : PageTable} {u : Kallocator}
    (walked : Walked t (a * PAGESIZE) s true t' u) (pte : Pte) :
    Remapped (t'.setPte (a * PAGESIZE) (some pte)) (a + 1) ∧ u.free + (sections (a + 1) - sections a) = s.free := by
  have here := h.missing a ge lt
  refine ⟨⟨?_, ?_⟩, ?_⟩
  · intro n ge' lt'
    have there := h.missing n ge' lt'
    obtain ⟨one, two⟩ := PIDX_ram ge lt
    obtain ⟨one', two'⟩ := PIDX_ram ge' lt'
    have section_eq : PIDX 2 (n * PAGESIZE) = PIDX 2 (a * PAGESIZE) ↔ n / 512 = a / 512 := by
      rw [Fin.ext_iff, two, two']
      omega
    rw [PageTable.missing_setPte, walked.missing rfl, touch, one, one', if_pos rfl, there, if_congr section_eq rfl rfl]
    unfold sections
    split_ifs
    all_goals omega
  · intro n ge' lt'
    rw [PageTable.pte_setPte_ne, walked.pte]
    · exact h.clear n (by omega) lt'
    · rw [Nat.mul_div_cancel _ (by decide), Nat.mul_div_cancel _ (by decide), Nat.mod_eq_of_lt (by omega), Nat.mod_eq_of_lt (by omega)]
      omega
  · have used := walked.used rfl
    rw [here] at used
    unfold sections at used ⊢
    split_ifs at used
    · omega
    · omega

/-- The loop of `pagemap` over pages of RAM, which all are to be mapped for the first time. -/
theorem mapPages_sections (attr : BitVec 64) (left : Nat) : ∀ {t : PageTable} {a pa : Nat} {s : Kallocator}, Remapped t a → s.held = false →
    0x40000 ≤ a → a + left ≤ 0x50000 →
    (∃ t' u, mapPages attr left t (a * PAGESIZE) pa s = .ok (t', u) ∧ Remapped t' (a + left) ∧ u.held = false ∧
      u.free + (sections (a + left) - sections a) = s.free) ∨
    mapPages attr left t (a * PAGESIZE) pa s = .error .undefined ∧ s.free < sections (a + left) - sections a := by
  induction left with
  | zero =>
    intro t a pa s h free ge le
    exact .inl ⟨t, s, rfl, h, free, by rw [Nat.add_zero, Nat.sub_self, Nat.add_zero]⟩
  | succ left ih =>
    intro t a pa s h free ge le
    have here := h.missing a ge (by omega)
    have mono : sections a ≤ sections (a + 1) ∧ sections (a + 1) ≤ sections (a + (left + 1)) := by
      unfold sections
      omega
    unfold mapPages
    rcases Nat.lt_or_ge s.free (t.missing (a * PAGESIZE)) with few | enough
    · right
      have fails : pagewalkDeref t (a * PAGESIZE) s = .error .undefined := by
        cases run : pagewalkDeref t (a * PAGESIZE) s with
        | ok r =>
          have walked := (pagewalkDeref_ends t (a * PAGESIZE) s).1 _ _ run
          have := walked.used rfl
          omega
        | error e => rw [(pagewalkDeref_fails free run).1]
      refine ⟨fail_bind.2 (.inl fails), ?_⟩
      rw [here] at few
      unfold sections at few ⊢
      split_ifs at few
      · omega
      · omega
    · obtain ⟨t₁, u, run, walked⟩ := pagewalkDeref_returns t (a * PAGESIZE) free enough
      obtain ⟨next, used⟩ := h.walked ge (by omega) walked { page := pa / PAGESIZE % 2 ^ 36, attr }
      have lock := pagewalkDeref_lock t (a * PAGESIZE) free _ _ run
      rw [bind_runs run, walked.pte, h.clear a le_rfl (by omega), if_neg (by decide), next_page (by omega)]
      rcases ih next lock (by omega) (by omega) with ⟨t', v, run', done, free', rest⟩ | ⟨fails, few⟩
      · left
        rw [show a + 1 + left = a + (left + 1) by omega] at done rest
        exact ⟨t', v, run', done, free', by omega⟩
      · right
        rw [show a + 1 + left = a + (left + 1) by omega] at few
        exact ⟨fails, by omega⟩

end Sections

namespace Words

/-- A block is no table. -/
theorem block_no_table {w : BitVec 64} (block : w.toNat % 4 = 1) : isTable w = false := by
  have clear : w &&& PTE_TABLE = 0#64 := by
    apply BitVec.eq_of_toNat_eq
    rw [BitVec.toNat_and, show PTE_TABLE.toNat = 2 ^ 1 by decide, Nat.and_two_pow, Nat.testBit_eq_decide_div_mod_eq]
    have bit : ¬ w.toNat / 2 ^ 1 % 2 = 1 := by omega
    rw [decide_eq_false bit]
    rfl
  unfold isTable
  rw [clear]
  simp

theorem l2pgtLoop_no_table (left : Nat) : ∀ {idx : Nat} {entry : BitVec 64} {words : Fin 512 → BitVec 64}, entry.toNat % 4 = 1 →
    (∀ i, isTable (words i) = false) → ∀ i, isTable (l2pgtLoop left idx entry words i) = false := by
  induction left with
  | zero => exact fun _ none => none
  | succ left ih =>
    intro idx entry words block none
    apply ih
    · rw [BitVec.toNat_add, BitVec.toNat_ofNat]
      omega
    · intro i
      rcases eq_or_ne i (Fin.ofNat 512 idx) with rfl | ne
      · rw [Function.update_self]
        exact block_no_table block
      · rw [Function.update_of_ne ne]
        exact none i

theorem mapSections_no_table {start last : Nat} {attr : BitVec 64} (block : (BitVec.ofNat 64 start ||| attr).toNat % 4 = 1) (i : Fin 512) :
    isTable (mapSections start last attr i) = false :=
  l2pgtLoop_no_table _ block (fun _ => by decide) i

/-- The end of the kernel, and the pages where the linker has put its tables. -/
structure KernelImage (kend : Nat) (l1kpgt l2kpgt0 l2kpgt1 : PageNo) : Prop where
  page : kend % PAGESIZE = 0
  above : KERNBASE < kend
  below : kend < PHYMEMEND
  inside : ∀ page ∈ [l1kpgt, l2kpgt0, l2kpgt1], InRam page ∧ page * PAGESIZE < V2P kend
  distinct : [l1kpgt, l2kpgt0, l2kpgt1].Nodup

/-- The tree of the tables of `boot.S`, in which a block is nothing. -/
def bootTable (l1kpgt l2kpgt0 l2kpgt1 : PageNo) : PageTable :=
  Table.put (Table.put (Table.empty l1kpgt) 0 (some (Table.empty l2kpgt0))) 1 (some (Table.empty l2kpgt1))

section Boot
variable {kend n : Nat} {l1kpgt l2kpgt0 l2kpgt1 : PageNo} {word : Memory} {s : Ram}

/-- The end of the kernel is a page. -/
theorem KernelImage.kend_page (h : KernelImage kend l1kpgt l2kpgt0 l2kpgt1) : ∃ n, 0x40000 < n ∧ n < 0x50000 ∧ kend = VA_START + n * PAGESIZE := by
  have le : VA_START ≤ kend := (Nat.le_add_left ..).trans h.above.le
  obtain ⟨m, rfl⟩ := Nat.exists_eq_add_of_le le
  have page : (VA_START + m) % PAGESIZE = 0 := h.page
  have above := h.above
  have below := h.below
  unfold PHYMEMEND at below
  unfold KERNBASE at above below
  have above : PKERNBASE < m := by omega
  have below : m < PKERNBASE + 256 * 1024 * 1024 := by omega
  have aligned : VA_START % PAGESIZE = 0 := by decide
  rw [Nat.add_mod, aligned, Nat.zero_add, Nat.mod_mod] at page
  obtain ⟨n, rfl⟩ := Nat.dvd_of_mod_eq_zero page
  rw [Nat.mul_comm PAGESIZE n] at *
  refine ⟨n, ?_, ?_, rfl⟩
  · simp only [PKERNBASE, PAGESIZE] at above
    omega
  · simp only [PKERNBASE, PAGESIZE] at below
    omega

theorem bootTable_remapped : Remapped (bootTable l1kpgt l2kpgt0 l2kpgt1) 0x40000 := by
  constructor
  · intro n ge lt
    obtain ⟨one, -⟩ := PIDX_ram ge lt
    have low : ¬ n < sections 0x40000 * 512 := by
      unfold sections
      omega
    rw [PageTable.missing, one, bootTable, Table.put_self, if_neg low]
    rfl
  · intro n ge lt
    obtain ⟨one, -⟩ := PIDX_ram ge lt
    rw [PageTable.pte, one, bootTable, Table.put_self]
    rfl

/-- What `boot.S` leaves. -/
theorem boot_shows (h : KernelImage kend l1kpgt l2kpgt0 l2kpgt1) (word : Memory) :
    (Level.first Clear.kernel).shown (bootPgt kend l1kpgt l2kpgt0 l2kpgt1 word) (bootTable l1kpgt l2kpgt0 l2kpgt1) := by
  have distinct := h.distinct
  simp only [List.nodup_cons, List.mem_cons, List.not_mem_nil, or_false, not_or, List.nodup_nil, and_true, not_false_eq_true] at distinct
  obtain ⟨⟨ne₀, ne₁⟩, ne⟩ := distinct
  have small : ∀ page ∈ [l1kpgt, l2kpgt0, l2kpgt1], page < 2 ^ 36 := fun page mem => (h.inside page mem).1.small
  -- the entry of a table, and what is in a second-level one
  have entry : ∀ page : PageNo, page < 2 ^ 36 → BitVec.ofNat 64 (page * PAGESIZE) ||| (PTE_TABLE ||| PTE_VALID) = tableEntry page := by
    intro (page : Nat) (low : page < 68719476736)
    have address : PTE_PA (BitVec.ofNat 64 (page * PAGESIZE)) = BitVec.ofNat 64 (page * PAGESIZE) := by
      apply BitVec.eq_of_toNat_eq
      rw [PTE_PA_toNat, BitVec.toNat_ofNat]
      simp only [PAGESIZE]
      omega
    rw [tableEntry, address, BitVec.or_assoc]
  have level2 : ∀ page words, (∀ i, isTable (words i) = false) → (bootPgt kend l1kpgt l2kpgt0 l2kpgt1 word) page = words →
      (Level.second Clear.kernel).shown (bootPgt kend l1kpgt l2kpgt0 l2kpgt1 word) (Table.empty page) := by
    intro page words none same i
    rw [Table.empty_entry, Table.empty_name, same]
    exact none i
  have one : bootPgt kend l1kpgt l2kpgt0 l2kpgt1 word l1kpgt =
      Function.update (Function.update (fun _ => 0#64) 0 (tableEntry l2kpgt0)) 1 (tableEntry l2kpgt1) := by
    unfold bootPgt
    dsimp only
    rw [Function.update_self, entry l2kpgt0 (small _ (by simp)), entry l2kpgt1 (small _ (by simp)),
      show PIDX 1 (0x8000000 + VA_START) = 0 by decide]
    rfl
  have blocks₁ : ∀ i, isTable (mapSections 0x40000000 (V2P kend - 1) (PTE_AF ||| PTE_NORMAL ||| PTE_VALID) i) = false :=
    mapSections_no_table (by decide)
  have blocks₀ : ∀ i, isTable (mapSections 0x8000000 0x3fffffff (PTE_AF ||| PTE_VALID) i) = false := mapSections_no_table (by decide)
  have two₁ := level2 l2kpgt1 _ blocks₁ (by
    unfold bootPgt
    exact (Function.update_of_ne (Ne.symm ne₁) ..).trans (Function.update_self ..))
  have two₀ := level2 l2kpgt0 _ blocks₀ (by
    unfold bootPgt
    exact (Function.update_of_ne (Ne.symm ne₀) ..).trans ((Function.update_of_ne ne ..).trans (Function.update_self ..)))
  intro i
  rw [bootTable, Table.put_name, Table.put_name, Table.empty_name, one]
  rcases eq_or_ne i 1 with rfl | other
  · rw [Table.put_self, Function.update_self]
    exact ⟨rfl, small _ (by simp), two₁⟩
  · rw [Table.put_ne _ _ other, Function.update_of_ne other]
    rcases eq_or_ne i 0 with rfl | other'
    · rw [Table.put_self, Function.update_self]
      exact ⟨rfl, small _ (by simp), two₀⟩
    · rw [Table.put_ne _ _ other', Function.update_of_ne other']
      exact (by decide : isTable 0#64 = false)

/-- The pages from `a` to `b` are freed, the last one first on the list. -/
theorem freeRange_returns (b : Nat) (left : Nat) : ∀ {a : Nat} {s : Ram}, s.kmem.held = false → b - a < left → a ≤ b →
    Returns (freeRange (VA_START + b * PAGESIZE) left (VA_START + a * PAGESIZE)) s fun _ s' =>
      s'.kmem = { freelist := (List.range' a (b - a)).reverse ++ s.kmem.freelist, held := false } ∧
      ∀ page < a, s'.word page = s.word page := by
  induction left with
  | zero => exact fun _ few => absurd few (Nat.not_lt_zero _)
  | succ left ih =>
    intro a s free few le
    unfold freeRange
    split
    · rename_i more
      have lt : a < b := by
        rw [Nat.add_assoc] at more
        have more' := Nat.le_of_add_le_add_left more
        simp only [PAGESIZE] at more'
        omega
      have page : V2P (VA_START + a * PAGESIZE) / PAGESIZE = a := by
        rw [V2P, Nat.add_sub_cancel_left, Nat.mul_div_cancel _ (by decide)]
      rw [page]
      obtain ⟨_, s₁, run, list, same⟩ := (kfree_lockstep a s).returns (kfree_free free)
      have next : VA_START + a * PAGESIZE + PAGESIZE = VA_START + (a + 1) * PAGESIZE := by
        rw [Nat.add_assoc, Nat.add_mul, Nat.one_mul]
      have held : s₁.kmem.held = false := by
        rw [list]
        exact free
      rw [next]
      apply Returns.step run
      apply (ih held (by omega) (by omega)).mono
      rintro _ s₂ ⟨list', same'⟩
      constructor
      · rw [list', list, show b - a = b - (a + 1) + 1 by omega, List.range'_succ, List.reverse_cons, List.append_assoc]
        rfl
      · intro other lt
        rw [same' other (Nat.lt_succ_of_lt lt), same other (Nat.ne_of_lt lt)]
    · rename_i ending
      have eq : b = a := by
        by_contra ne
        apply ending
        rw [Nat.add_assoc]
        apply Nat.add_le_add_left
        simp only [PAGESIZE]
        omega
      apply Returns.pure
      rw [eq, Nat.sub_self]
      exact ⟨by rw [← free]; rfl, fun _ _ => rfl⟩

/-- What `kalloc_init1` leaves: the pages behind the kernel, to the end of its section. -/
theorem kallocInit1_returns (h : KernelImage kend l1kpgt l2kpgt0 l2kpgt1) (word : Memory) (kmem : Kallocator) (end_ : kend = VA_START + n * PAGESIZE)
    (lt : n < 0x50000) : Returns (kallocInit1 kend) { kmem, word := bootPgt kend l1kpgt l2kpgt0 l2kpgt1 word } fun _ s =>
      Holds s Clear.kernel (bootTable l1kpgt l2kpgt0 l2kpgt1) ∧ s.kmem.held = false ∧ s.kmem.free = sections n * 512 - n := by
  have le : n ≤ sections n * 512 ∧ sections n * 512 - n < 512 ∧ sections n * 512 ≤ 0x50000 := by
    unfold sections
    omega
  have last : ksecend kend = VA_START + sections n * 512 * PAGESIZE := by
    rw [end_]
    unfold ksecend sections
    simp only [VA_START, SECTIONSIZE, PAGESIZE, U64]
    omega
  have count : (ksecend kend - kend) / PAGESIZE = sections n * 512 - n := by
    rw [last, end_, Nat.add_sub_add_left, ← Nat.sub_mul, Nat.mul_div_cancel _ (by decide)]
  have below : ∀ page ∈ [l1kpgt, l2kpgt0, l2kpgt1], page < n := by
    intro page mem
    have lt := (h.inside page mem).2
    rw [end_, V2P, Nat.add_sub_cancel_left] at lt
    exact Nat.lt_of_mul_lt_mul_right lt
  have pages : PageTable.tablePages (bootTable l1kpgt l2kpgt0 l2kpgt1) = ↑[l1kpgt, l2kpgt0, l2kpgt1] := by
    have one := Table.names_put (Table.names (Table.names fun _ : Pte => 0)) (Table.empty l1kpgt : PageTable) 0 (some (Table.empty l2kpgt0))
    have two := Table.names_put (Table.names (Table.names fun _ : Pte => 0))
      (Table.put (Table.empty l1kpgt : PageTable) 0 (some (Table.empty l2kpgt0))) 1 (some (Table.empty l2kpgt1))
    rw [Table.empty_entry, Option.elim_none, add_zero, Option.elim_some, Table.names_empty, Table.names_empty] at one
    rw [Table.put_ne _ _ (by decide), Table.empty_entry, Option.elim_none, add_zero, Option.elim_some, Table.names_empty, one] at two
    exact two
  unfold kallocInit1
  rw [count, last, end_]
  refine Returns.step (modify_runs ..) ?_
  apply (freeRange_returns (sections n * 512) _ rfl (by omega) le.1).mono
  rintro _ s ⟨list, same⟩
  rw [List.append_nil] at list
  refine ⟨⟨?_, ?_, ?_⟩, ?_, ?_⟩
  · apply (Level.first Clear.kernel).frame (boot_shows h word)
    intro page mem
    have mine : page ∈ PageTable.tablePages (bootTable l1kpgt l2kpgt0 l2kpgt1) := mem
    rw [pages] at mine
    rw [same page (below page (Multiset.mem_coe.1 mine)), end_]
  · rw [pages, Kallocator.pool, list, Multiset.coe_reverse, Multiset.coe_add, Multiset.coe_nodup, List.nodup_append]
    refine ⟨List.nodup_range', h.distinct, ?_⟩
    rintro page mem _ mem' rfl
    exact absurd (below page mem') (not_lt.2 (List.mem_range'_1.1 mem).1)
  · rw [list]
    intro (page : Nat) mem
    have low := (List.mem_range'_1.1 (List.mem_reverse.1 mem)).2
    show page < 2 ^ 36
    omega
  · rw [list]
  · rw [Kallocator.free, list, List.length_reverse, List.length_range']

/-- How `kpgt_init` ends. -/
theorem kpgtInit_ends (h : Holds s Clear.kernel (bootTable l1kpgt l2kpgt0 l2kpgt1)) (free : s.kmem.held = false) (ge : 0x40000 ≤ n)
    (lt : n < 0x50000) : (∃ s', kpgtInit l1kpgt (VA_START + n * PAGESIZE) s = .ok ((), s')) ∧ 128 ≤ s.kmem.free ∨
      kpgtInit l1kpgt (VA_START + n * PAGESIZE) s = .error .undefined ∧ s.kmem.free < 128 := by
  have counts : sections 0x40000 = 512 ∧ sections 0x50000 = 640 := by decide
  have mono : 512 ≤ sections n ∧ sections n ≤ 640 := by
    unfold sections
    omega
  -- the addresses and sizes that it maps, as pages
  have base : VA_START + n * PAGESIZE - KERNBASE = (n - 0x40000) * PAGESIZE := by
    rw [KERNBASE, Nat.add_comm PKERNBASE, Nat.add_sub_add_left, Nat.sub_mul]
    rfl
  have rest : PHYMEMEND - (VA_START + n * PAGESIZE) = (0x50000 - n) * PAGESIZE := by
    have top : PKERNBASE + 256 * 1024 * 1024 = 0x50000 * PAGESIZE := rfl
    unfold PHYMEMEND KERNBASE
    rw [Nat.sub_mul]
    omega
  have address : V2P (VA_START + n * PAGESIZE) = n * PAGESIZE := Nat.add_sub_cancel_left ..
  have aligned : ∀ m, (VA_START + m * PAGESIZE) % PAGESIZE = 0 := by
    intro m
    rw [Nat.add_mul_mod_self_right]
    decide
  have low : ∀ m, m * PAGESIZE % 2 ^ 39 = (VA_START + m * PAGESIZE) % 2 ^ 39 := by
    intro m
    rw [Nat.add_mod, show VA_START % 2 ^ 39 = 0 by decide, Nat.zero_add, Nat.mod_mod]
  have attr : PTE_PA PTE_NORMAL = 0#64 ∧ PTE_PA (PTE_NORMAL ||| PTE_PXN ||| PTE_UXN) = 0#64 := by decide
  have runs : ∀ (t : PageTable) (m left pa : Nat) (attr : BitVec 64), pa % PAGESIZE = 0 →
      Kernel.pagemap t (VA_START + m * PAGESIZE) pa (left * PAGESIZE) attr = Kernel.mapPages attr left t (m * PAGESIZE) pa := by
    intro t m left pa attr page
    rw [Kernel.pagemap, if_neg (by simp [aligned m, page]), Nat.mul_div_cancel _ (by decide), mapPages_mod attr left (low m)]
  have first := pagemap_lockstep attr.1 h (VA_START + 0x40000 * PAGESIZE) PKERNBASE ((n - 0x40000) * PAGESIZE)
  rw [runs _ _ _ _ _ (by decide)] at first
  have kernbase : KERNBASE = VA_START + 0x40000 * PAGESIZE := by
    rw [KERNBASE, Nat.add_comm]
    rfl
  unfold kpgtInit
  rw [base, rest, address, kernbase]
  have loop := @mapPages_sections PTE_NORMAL (n - 0x40000) (bootTable l1kpgt l2kpgt0 l2kpgt1) 0x40000 PKERNBASE s.kmem bootTable_remapped free
    le_rfl (by omega)
  rw [Nat.add_sub_cancel' ge, counts.1] at loop
  rcases loop with ⟨t₁, u₁, run₁, remapped, free₁, used₁⟩ | ⟨fails, few⟩
  · obtain ⟨_, s₁, run, rfl, becomes⟩ := first.returns run₁
    have second := pagemap_lockstep attr.2 becomes.holds (VA_START + n * PAGESIZE) (n * PAGESIZE) ((0x50000 - n) * PAGESIZE)
    rw [runs _ _ _ _ _ (Nat.mul_mod_left ..), becomes.name] at second
    have loop := @mapPages_sections (PTE_NORMAL ||| PTE_PXN ||| PTE_UXN) (0x50000 - n) t₁ n (n * PAGESIZE) s₁.kmem remapped free₁ ge (by omega)
    rw [Nat.add_sub_cancel' lt.le, counts.2] at loop
    rcases loop with ⟨t₂, u₂, run₂, -, -, used₂⟩ | ⟨fails, few⟩
    · obtain ⟨_, s₂, run', -⟩ := second.returns run₂
      exact .inl ⟨⟨s₂, (bind_runs run).trans run'⟩, by omega⟩
    · exact .inr ⟨(bind_runs run).trans ((second.1 _).2 fails), by omega⟩
  · exact .inr ⟨fail_bind.2 (.inl ((first.1 _).2 fails)), by omega⟩

/-- How the two end together. -/
theorem boot_ends (h : KernelImage kend l1kpgt l2kpgt0 l2kpgt1) (word : Memory) (kmem : Kallocator) :
    (∃ s', (kallocInit1 kend >>= fun _ => kpgtInit l1kpgt kend) { kmem, word := bootPgt kend l1kpgt l2kpgt0 l2kpgt1 word } = .ok ((), s')) ∧
      (0 < kend % SECTIONSIZE ∧ kend % SECTIONSIZE ≤ 0x180000) ∨
    (kallocInit1 kend >>= fun _ => kpgtInit l1kpgt kend) { kmem, word := bootPgt kend l1kpgt l2kpgt0 l2kpgt1 word } = .error .undefined ∧
      ¬ (0 < kend % SECTIONSIZE ∧ kend % SECTIONSIZE ≤ 0x180000) := by
  obtain ⟨n, gt, lt, end_⟩ := h.kend_page
  obtain ⟨_, s, run, holds, free, count⟩ := kallocInit1_returns h word kmem end_ lt
  have rest : kend % SECTIONSIZE = n % 512 * PAGESIZE := by
    rw [end_]
    simp only [VA_START, SECTIONSIZE, PAGESIZE]
    omega
  have enough : 128 ≤ s.kmem.free ↔ 0 < kend % SECTIONSIZE ∧ kend % SECTIONSIZE ≤ 0x180000 := by
    rw [count, rest, sections]
    simp only [PAGESIZE]
    omega
  have second := kpgtInit_ends holds free gt.le lt
  rw [← end_] at second
  rcases second with ⟨⟨s', run'⟩, many⟩ | ⟨fails, few⟩
  · exact .inl ⟨⟨s', (bind_runs run).trans run'⟩, enough.1 many⟩
  · exact .inr ⟨(bind_runs run).trans fails, fun fits => absurd (enough.2 fits) (not_le.2 few)⟩

/-- **Remapping the kernel** comes to its end where the last section of the kernel has 128 pages left. -/
theorem kpgtInit_completes_iff (h : KernelImage kend l1kpgt l2kpgt0 l2kpgt1) (word : Memory) (kmem : Kallocator) :
    (∃ s', (kallocInit1 kend >>= fun _ => kpgtInit l1kpgt kend) { kmem, word := bootPgt kend l1kpgt l2kpgt0 l2kpgt1 word } = .ok ((), s')) ↔
      0 < kend % SECTIONSIZE ∧ kend % SECTIONSIZE ≤ 0x180000 := by
  rcases boot_ends h word kmem with ⟨completes, fits⟩ | ⟨fails, not_fits⟩
  · exact iff_of_true completes fits
  · refine iff_of_false ?_ not_fits
    rintro ⟨s', run⟩
    rw [fails] at run
    cases run

/-- A kernel of 1 MB has 256 pages left, -/
theorem oneMegabyte_completes : ∃ s', (kallocInit1 (KERNBASE + 0x100000) >>= fun _ => kpgtInit 0x40080 (KERNBASE + 0x100000))
    { kmem := { freelist := [], held := false }, word := bootPgt (KERNBASE + 0x100000) 0x40080 0x40081 0x40082 fun _ _ => 0#64 } = .ok ((), s') :=
  (kpgtInit_completes_iff ⟨by decide, by decide, by decide, by decide, by decide⟩ _ _).2 (by decide)

/-- and one of 2 MB none: `pagemap` uses the NULL of its first walk. -/
theorem twoMegabytes_fails : KernelImage (KERNBASE + SECTIONSIZE) 0x40100 0x40101 0x40102 ∧
    (kallocInit1 (KERNBASE + SECTIONSIZE) >>= fun _ => kpgtInit 0x40100 (KERNBASE + SECTIONSIZE))
      { kmem := { freelist := [], held := false }, word := bootPgt (KERNBASE + SECTIONSIZE) 0x40100 0x40101 0x40102 fun _ _ => 0#64 } =
        .error .undefined := by
  have image : KernelImage (KERNBASE + SECTIONSIZE) 0x40100 0x40101 0x40102 := ⟨by decide, by decide, by decide, by decide, by decide⟩
  refine ⟨image, ?_⟩
  rcases boot_ends image (fun _ _ => 0#64) { freelist := [], held := false } with ⟨-, fits⟩ | ⟨fails, -⟩
  · exact absurd fits (by decide)
  · exact fails

end Boot

end Words

end Aarch64Os.Kernel
