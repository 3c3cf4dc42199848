import Aarch64Os.Kernel.Mm.PageTable

/-!
# User address spaces (`kernel/mm.c`, `kernel/proc.c`)

The functions that fill, grow, copy and free the pages of a process, and the part of `exec`
that builds a new address space. A program file is its loadable headers, and what reading it
gives; an argument is its length. The page loops take a page in every round but the last, so
as many rounds as there are free pages, and one more, are enough.
-/

namespace Aarch64Os.Kernel
set_option autoImplicit false
open Base

/-- `PAGEROUNDUP`. -/
def PAGEROUNDUP (p : Nat) : Nat := (p + PAGESIZE - 1) % U64 / PAGESIZE * PAGESIZE

/-- `VA_START`. -/
def VA_START : Nat := 0xffffff8000000000

/-- `USTACKTOP`. -/
def USTACKTOP : Nat := 0x7ffffff000

/-- `USTACKBOTTOM`. -/
def USTACKBOTTOM : Nat := USTACKTOP - PAGESIZE

/-- `PTE_NORMAL`. -/
def PTE_NORMAL : BitVec 64 := 1#64 <<< 2

/-- `PTE_U`. -/
def PTE_U : BitVec 64 := 1#64 <<< 6

/-- `PTE_PXN`. -/
def PTE_PXN : BitVec 64 := 1#64 <<< 53

/-- `PTE_UXN`. -/
def PTE_UXN : BitVec 64 := 1#64 <<< 54

/-- The loop of `alloc_userspace` and `grow_userspace`: whether it has come to its end. -/
def allocPages (attr : BitVec 64) (size : Nat) : Nat → PageTable → Nat → Nat → MmM (Bool × PageTable)
  | 0, _, _, _ => throw .hang
  | left + 1, pgt, va, p =>
    if p < size then do
      let upage ← kalloc
      match upage with
      | none => pure (false, pgt)
      | some upage =>
        let pgt ← pagemap pgt va (upage * PAGESIZE) PAGESIZE attr
        allocPages attr size left pgt ((va + PAGESIZE) % U64) ((p + PAGESIZE) % U64)
    else pure (true, pgt)

/-- `alloc_userspace`. -/
def allocUserspace (pgt : PageTable) (va memsz : Nat) : MmM (Int × PageTable) := do
  let s ← get
  let (done, pgt) ← allocPages (PTE_NORMAL ||| PTE_U) memsz (s.free + 1) pgt va 0
  pure (if done then (BitVec.ofNat 32 memsz).toInt else -1, pgt)

/-- `grow_userspace`. -/
def growUserspace (pgt : PageTable) (va oldsz newsz : Nat) : MmM (Option Nat × PageTable) := do
  let start := (va + oldsz) % U64
  let oldsz := PAGEROUNDUP oldsz
  let s ← get
  let (done, pgt) ← allocPages (PTE_NORMAL ||| PTE_U ||| PTE_UXN ||| PTE_PXN) newsz (s.free + 1) pgt ((va + oldsz) % U64) oldsz
  pure (if done then some start else none, pgt)

/-- `map_ustack`: whether there was a page. -/
def mapUstack (pgt : PageTable) : MmM (Bool × PageTable) := do
  let ustack ← kalloc
  match ustack with
  | none => pure (false, pgt)
  | some ustack =>
    let pgt ← pagemap pgt USTACKBOTTOM (ustack * PAGESIZE) PAGESIZE (PTE_NORMAL ||| PTE_U ||| PTE_UXN ||| PTE_PXN)
    pure (true, pgt)

/-- The loop of `cp_userspace`; the walk in the old table may add tables to it. -/
def copyPages (size : Nat) : Nat → PageTable → PageTable → Nat → Nat → MmM (Bool × PageTable × PageTable)
  | 0, _, _, _, _ => throw .hang
  | left + 1, newpgt, oldpgt, va, p =>
    if p < size then do
      let oldpgt ← pagewalkDeref oldpgt va
      let page ← kalloc
      match page with
      | none => pure (false, newpgt, oldpgt)
      | some page =>
        let newpgt ← pagemap newpgt va (page * PAGESIZE) PAGESIZE (PTE_NORMAL ||| PTE_U)
        copyPages size left newpgt oldpgt ((va + PAGESIZE) % U64) ((p + PAGESIZE) % U64)
    else pure (true, newpgt, oldpgt)

/-- `cp_userspace`. -/
def cpUserspace (newpgt oldpgt : PageTable) (va size : Nat) : MmM (Int × PageTable × PageTable) := do
  let s ← get
  let (done, newpgt, oldpgt) ← copyPages size (s.free + 1) newpgt oldpgt va 0
  if !done then pure (-1, newpgt, oldpgt)
  else
    let oldpgt ← pagewalkDeref oldpgt USTACKBOTTOM
    let (mapped, newpgt) ← mapUstack newpgt
    pure (if mapped then 0 else -1, newpgt, oldpgt)

/-- `free_userspace`. -/
def freeUserspace (pgt : PageTable) (size : Nat) : MmM Unit := do
  let pgt ← pageunmap pgt 0x1000 (PAGEROUNDUP size)
  let pgt ← pageunmap pgt USTACKBOTTOM PAGESIZE
  pgt.free

/-- `uva2pa`. -/
def uva2pa (pgt : PageTable) (va : Nat) : MmM (Nat × PageTable) := do
  let (found, pgt) ← pagewalk pgt va
  pure (if found then ((pgt.pte va).elim 0 fun pte => pte.page * PAGESIZE) + va % PAGESIZE else 0, pgt)

/-- The loop of `load_prg`; `reads p` says whether the file has the bytes for `p`. -/
def loadPages (filesz : Nat) (reads : Nat → Bool) (va : Nat) : Nat → PageTable → Nat → MmM (Int × PageTable)
  | 0, _, _ => throw .hang
  | left + 1, pgt, p =>
    if p < filesz then do
      let (pa, pgt) ← uva2pa pgt ((va + p) % U64)
      if pa = 0 then pure (-1, pgt)
      else if reads p then loadPages filesz reads va left pgt ((p + PAGESIZE) % U64)
      else pure (-1, pgt)
    else pure (0, pgt)

/-- `load_prg`. -/
def loadPrg (pgt : PageTable) (va filesz : Nat) (reads : Nat → Bool) : MmM (Int × PageTable) :=
  if va % PAGESIZE ≠ 0 then pure (-1, pgt) else loadPages filesz reads va (filesz / PAGESIZE + 2) pgt 0

/-- `PT_LOAD`. -/
def PT_LOAD : Nat := 1

/-- A `struct phdr`, and what the file has of its segment. -/
structure Phdr where
  p_type : Nat
  p_vaddr : Nat
  p_memsz : Nat
  p_filesz : Nat
  reads : Nat → Bool

/-- The loop of `exec` over the headers, `none` for one that cannot be read: the sum of the
sizes, or nothing when it fails. -/
def execSegments : List (Option Phdr) → PageTable → Nat → MmM (Option Nat × PageTable)
  | [], pgt, memsize => pure (some memsize, pgt)
  | none :: _, pgt, _ => pure (none, pgt)
  | some ph :: phdrs, pgt, memsize =>
    if ph.p_type ≠ PT_LOAD then execSegments phdrs pgt memsize
    else do
      let (sz, pgt) ← allocUserspace pgt ph.p_vaddr ph.p_memsz
      if sz < 0 then pure (none, pgt)
      else
        let (r, pgt) ← loadPrg pgt ph.p_vaddr ph.p_filesz ph.reads
        if r < 0 then pure (none, pgt) else execSegments phdrs pgt ((memsize + sz.toNat) % U64)

/-- The loop of `exec` over the arguments: their number, and how much of the stack is left. -/
def pushArgs : Nat → Int → List Nat → Option (Nat × Int)
  | argc, sp, [] => some (argc, sp)
  | argc, sp, len :: argv =>
    let sp := (sp - (len + 1)) / 16 * 16
    if argc ≥ 8 ∨ sp < 0 then none else pushArgs (argc + 1) sp argv

/-- The stack `exec` builds for `argv`: how many arguments, if they fit. -/
def buildStack (argv : List Nat) : Option Nat := do
  let (argc, sp) ← pushArgs 0 PAGESIZE argv
  if (sp - 8 * (argc + 1)) / 16 * 16 < 0 then none else some argc

/-- `exec` in a process with `pgt` and `size`: its result, and the new table and size. Nothing
of `file` means that it is not found, or not an executable. -/
def execSpace (pgt : PageTable) (size : Nat) (file : Option (List (Option Phdr))) (argv : List Nat) :
    MmM (Int × Option (PageTable × Nat)) :=
  match file with
  | none => pure (-1, none)
  | some phdrs => do
    let page ← kalloc
    match page with
    | none => pure (-1, none)
    | some page =>
      let (loaded, new) ← execSegments phdrs (Table.empty page) 0
      match loaded with
      | none =>
        kfree new.name
        pure (-1, none)
      | some memsize =>
        let (mapped, new) ← mapUstack new
        if !mapped then throw .undefined
        else
          match buildStack argv with
          | none =>
            kfree new.name
            pure (-1, none)
          | some argc =>
            freeUserspace pgt size
            pure (argc, some (new, memsize))

/-- The rounds of a page loop from page `b` on. -/
def rounds (b size : Nat) : Nat := (size - b * PAGESIZE + (PAGESIZE - 1)) / PAGESIZE

/-- The pages that mapping `count` pages from `va` on takes, with the tables that are missing. -/
def need (missing : Nat → Nat) : Nat → Nat → Nat
  | 0, _ => 0
  | count + 1, va => missing va + 1 + need (touch missing va) count ((va + PAGESIZE) % U64)

theorem rounds_more {b size : Nat} (more : b * PAGESIZE < size) : rounds b size = rounds (b + 1) size + 1 := by
  simp only [rounds, PAGESIZE] at *
  omega

theorem rounds_end {b size : Nat} (ending : ¬ b * PAGESIZE < size) : rounds b size = 0 := by
  simp only [rounds, PAGESIZE] at *
  omega

section Loops
variable {t t' : PageTable} {mapped : Nat → Prop}

/-- The next page of a loop. -/
theorem next_page {a : Nat} (low : a + 1 < 2 ^ 52) : (a * PAGESIZE + PAGESIZE) % U64 = (a + 1) * PAGESIZE := by
  have below : (a + 1) * PAGESIZE < 2 ^ 52 * PAGESIZE := Nat.mul_lt_mul_of_pos_right low (by decide)
  rw [show a * PAGESIZE + PAGESIZE = (a + 1) * PAGESIZE by rw [Nat.add_mul, Nat.one_mul]]
  exact Nat.mod_eq_of_lt below

/-- The loop that takes pages and maps them from page `a` on. -/
theorem allocPages_ends (attr : BitVec 64) (size left : Nat) : ∀ {t : PageTable} {mapped : Nat → Prop} {a b : Nat} {s : Kallocator},
    t.Maps mapped → (∀ n, a ≤ n → n < a + s.free → ¬ mapped n) → a + s.free < 2 ^ 27 → b + s.free < 2 ^ 50 →
    Ends PagePanic (allocPages attr size left t (a * PAGESIZE) (b * PAGESIZE)) s fun r u => ∃ k ≤ s.free,
      (r.2.Maps fun n => mapped n ∨ a ≤ n ∧ n < a + k) ∧ u.free + r.2.pages = s.free + t.pages ∧ t.pages + k ≤ r.2.pages ∧
      (∀ j < k, (b + j) * PAGESIZE < size) ∧ (r.1 = true ↔ size ≤ (b + k) * PAGESIZE) ∧
      (r.1 = true ↔ need t.missing (rounds b size) (a * PAGESIZE) ≤ s.free) ∧ (r.1 = false → k = 0 → s.free = 0) := by
  induction left with
  | zero => exact fun _ _ _ _ => Ends.throw not_pagePanic_hang
  | succ left ih =>
    intro t mapped a b s maps new low low'
    unfold allocPages
    split
    case isFalse ending =>
      apply Ends.pure
      refine ⟨0, Nat.zero_le _, fun n lt => ?_, rfl, (Nat.add_zero _).le, fun j lt => absurd lt j.not_lt_zero, ?_, ?_, nofun⟩
      · rw [maps n lt]
        exact ⟨.inl, fun h => h.resolve_right (by omega)⟩
      · exact ⟨fun _ => by simpa using ending, fun _ => rfl⟩
      · rw [rounds_end ending]
        exact ⟨fun _ => Nat.zero_le _, fun _ => rfl⟩
    case isTrue more =>
    apply (kalloc_ends s).bind
    rintro (_ | upage) s' ⟨taken, full⟩
    · apply Ends.pure
      have zero : s.free = 0 := full.1 rfl
      refine ⟨0, Nat.zero_le _, fun n lt => ?_, ?_, (Nat.add_zero _).le, fun j lt => absurd lt j.not_lt_zero, ?_, ?_, fun _ _ => zero⟩
      · rw [maps n lt]
        exact ⟨.inl, fun h => h.resolve_right (by omega)⟩
      · simp only [Option.elim_none] at taken
        simp only
        omega
      · exact ⟨nofun, fun le => absurd le (by simpa using more)⟩
      · rw [rounds_more more, zero]
        exact ⟨nofun, fun le => absurd le (by rw [need]; omega)⟩
    · simp only [Option.elim_some] at taken
      apply (pagemap_ends maps (by omega) (new a le_rfl (by omega)) upage attr s').bind
      rintro t' u ⟨maps', pages, used, missing⟩
      rw [next_page (by omega), next_page (by omega)]
      apply (ih (a := a + 1) (b := b + 1) maps' ?_ (by omega) (by omega)).mono
      · rintro r v ⟨k, le, maps'', total, more', before, done, fits, -⟩
        refine ⟨k + 1, by omega, fun n lt => ?_, by omega, by omega, fun j lt => ?_, ?_, ?_, nofun⟩
        · rw [maps'' n lt]
          constructor
          · rintro ((rfl | h) | ⟨ge, lt⟩)
            · exact .inr (by omega)
            · exact .inl h
            · exact .inr (by omega)
          · rintro (h | ⟨ge, lt⟩)
            · exact .inl (.inr h)
            · rcases eq_or_ne n a with here | other
              · exact .inl (.inl here)
              · exact .inr (by omega)
        · cases j with
          | zero => exact more
          | succ j =>
            have later := before j (by omega)
            rwa [Nat.add_assoc, Nat.add_comm 1 j] at later
        · rw [done, Nat.add_assoc, Nat.add_comm 1 k]
        · rw [fits, rounds_more more, need, ← missing, next_page (by omega)]
          omega
      · rintro n ge lt (rfl | h)
        · omega
        · exact new n (by omega) (by omega) h

/-- The loop that copies pages from page `a` on. -/
theorem copyPages_ends (size left : Nat) : ∀ {new old : PageTable} {mapped : Nat → Prop} {a b : Nat} {s : Kallocator},
    new.Maps mapped → (∀ n, a ≤ n → n < a + s.free → ¬ mapped n) → a + s.free < 2 ^ 27 → b + s.free < 2 ^ 50 →
    Ends PagePanic (copyPages size left new old (a * PAGESIZE) (b * PAGESIZE)) s fun r u => ∃ k ≤ s.free,
      (r.2.1.Maps fun n => mapped n ∨ a ≤ n ∧ n < a + k) ∧ (∀ va, r.2.2.pte va = old.pte va) ∧
      u.free + (r.2.1.pages + r.2.2.pages) = s.free + (new.pages + old.pages) ∧
      new.pages + k ≤ r.2.1.pages ∧ old.pages ≤ r.2.2.pages ∧ (∀ j < k, (b + j) * PAGESIZE < size) ∧ (r.1 = true → size ≤ (b + k) * PAGESIZE) := by
  induction left with
  | zero => exact fun _ _ _ _ => Ends.throw not_pagePanic_hang
  | succ left ih =>
    intro new old mapped a b s maps fresh low low'
    unfold copyPages
    split
    case isFalse ending =>
      apply Ends.pure
      refine ⟨0, Nat.zero_le _, fun n lt => ?_, fun _ => rfl, rfl, (Nat.add_zero _).le, le_rfl,
        fun j lt => absurd lt j.not_lt_zero, fun _ => by simpa using ending⟩
      rw [maps n lt]
      exact ⟨.inl, fun h => h.resolve_right (by omega)⟩
    case isTrue more =>
    apply (pagewalkDeref_ends old (a * PAGESIZE) s).bind
    intro old' s' walked
    have walk := walked.pages
    have less := walked.used rfl
    apply (kalloc_ends s').bind
    rintro (_ | page) s'' ⟨taken, full⟩
    · apply Ends.pure
      simp only [Option.elim_none, Nat.add_zero] at taken
      refine ⟨0, Nat.zero_le _, fun n lt => ?_, walked.pte, by simp only; omega, (Nat.add_zero _).le, by simp only; omega,
        fun j lt => absurd lt j.not_lt_zero, nofun⟩
      rw [maps n lt]
      exact ⟨.inl, fun h => h.resolve_right (by omega)⟩
    · simp only [Option.elim_some] at taken
      apply (pagemap_ends maps (by omega) (fresh a le_rfl (by omega)) page _ s'').bind
      rintro new' u ⟨maps', pages, used, -⟩
      rw [next_page (by omega), next_page (by omega)]
      apply (ih (a := a + 1) (b := b + 1) maps' ?_ (by omega) (by omega)).mono
      · rintro r v ⟨k, le, maps'', same, total, more', more'', before, done⟩
        refine ⟨k + 1, by omega, fun n lt => ?_, fun va => (same va).trans (walked.pte va), by omega, by omega, by omega,
          fun j lt => ?_, fun ended => ?_⟩
        · rw [maps'' n lt]
          constructor
          · rintro ((rfl | h) | ⟨ge, lt⟩)
            · exact .inr (by omega)
            · exact .inl h
            · exact .inr (by omega)
          · rintro (h | ⟨ge, lt⟩)
            · exact .inl (.inr h)
            · rcases eq_or_ne n a with here | other
              · exact .inl (.inl here)
              · exact .inr (by omega)
        · cases j with
          | zero => exact more
          | succ j =>
            have later := before j (by omega)
            rwa [Nat.add_assoc, Nat.add_comm 1 j] at later
        · have later := done ended
          rwa [Nat.add_assoc, Nat.add_comm 1 k] at later
      · rintro n ge lt (rfl | h)
        · omega
        · exact fresh n (by omega) (by omega) h

end Loops

/-- The page of the user stack. -/
def STACKPAGE : Nat := USTACKBOTTOM / PAGESIZE

/-- The pages of a process whose image is `r` pages long: those from `0x1000` on, and the stack. -/
def Image (r n : Nat) : Prop := 1 ≤ n ∧ n < 1 + r ∨ n = STACKPAGE

section Spaces
variable {t : PageTable} {r size : Nat}

/-- As many pages as the loops take. -/
theorem PAGEROUNDUP_eq {k : Nat} (low : k < 2 ^ 50) (whole : size ≤ k * PAGESIZE) (before : ∀ j < k, j * PAGESIZE < size) :
    PAGEROUNDUP size = k * PAGESIZE := by
  have last : k = 0 ∨ (k - 1) * PAGESIZE < size := by
    rcases Nat.eq_zero_or_pos k with zero | pos
    · exact .inl zero
    · exact .inr (before (k - 1) (by omega))
  have small : size + PAGESIZE - 1 < U64 := by
    have bound : k * PAGESIZE < 2 ^ 50 * PAGESIZE := Nat.mul_lt_mul_of_pos_right low (by decide)
    simp only [PAGESIZE, U64] at *
    omega
  unfold PAGEROUNDUP
  rw [Nat.mod_eq_of_lt small]
  congr 1
  simp only [PAGESIZE] at *
  omega

/-- A size that rounds to `b` pages and is not past the last of them. -/
theorem PAGEROUNDUP_bounds {b : Nat} (lt : size < U64) (eq : PAGEROUNDUP size = b * PAGESIZE) :
    b = 0 ∨ size ≤ b * PAGESIZE ∧ (b - 1) * PAGESIZE < size := by
  unfold PAGEROUNDUP at eq
  have count : (size + PAGESIZE - 1) % U64 / PAGESIZE = b := Nat.eq_of_mul_eq_mul_right (by decide) eq
  rcases Nat.lt_or_ge (size + PAGESIZE - 1) U64 with low | wraps
  · rw [Nat.mod_eq_of_lt low] at count
    simp only [PAGESIZE] at *
    omega
  · rw [Nat.mod_eq_sub_mod wraps, Nat.mod_eq_of_lt (by simp only [PAGESIZE, U64] at *; omega)] at count
    simp only [PAGESIZE, U64] at *
    omega

theorem PAGEROUNDUP_pages (size : Nat) : PAGEROUNDUP size / PAGESIZE * PAGESIZE = PAGEROUNDUP size := by
  rw [PAGEROUNDUP, Nat.mul_div_cancel _ (by decide)]

/-- The stack is mapped above the image. -/
theorem mapUstack_ends (s : Kallocator) (maps : t.Maps fun n => 1 ≤ n ∧ n < 1 + r) (low : 1 + r ≤ STACKPAGE) :
    Ends PagePanic (mapUstack t) s fun m u =>
      (m.1 = true → m.2.Maps (Image r)) ∧ u.free + m.2.pages = s.free + t.pages ∧ t.pages ≤ m.2.pages := by
  unfold mapUstack
  apply (kalloc_ends s).bind
  rintro (_ | ustack) s' ⟨taken, full⟩
  · exact Ends.pure ⟨nofun, by simp only [Option.elim_none] at taken; simp only; omega, le_rfl⟩
  · simp only [Option.elim_some] at taken
    have place : USTACKBOTTOM = STACKPAGE * PAGESIZE := by decide
    have inside : STACKPAGE < 2 ^ 27 := by decide
    rw [place]
    apply (pagemap_ends maps inside (by omega) ustack _ s').bind
    rintro t' u ⟨maps', pages, used, -⟩
    apply Ends.pure
    refine ⟨fun _ n lt => ?_, by simp only; omega, by simp only; omega⟩
    rw [maps' n lt]
    exact or_comm

/-- `cp_userspace` into an empty table. -/
theorem cpUserspace_ends {new old : PageTable} (s : Kallocator) (empty : new.Maps fun _ => False) (low : 1 + s.free ≤ STACKPAGE) :
    Ends PagePanic (cpUserspace new old 0x1000 size) s fun c u =>
      (¬ c.1 < 0 → c.2.1.Maps (Image (PAGEROUNDUP size / PAGESIZE)) ∧ PAGEROUNDUP size / PAGESIZE ≤ c.2.1.pages) ∧
      (∀ va, c.2.2.pte va = old.pte va) ∧ u.free + (c.2.1.pages + c.2.2.pages) = s.free + (new.pages + old.pages) ∧
      old.pages ≤ c.2.2.pages := by
  have top : STACKPAGE < 2 ^ 27 := by decide
  unfold cpUserspace
  apply Ends.step (get_runs s)
  apply (copyPages_ends size (s.free + 1) (a := 1) (b := 0) empty (fun _ _ _ => id) (by omega) (by omega)).bind
  rintro ⟨done, new', old'⟩ u ⟨k, le, maps, same, total, more, more', before, ended⟩
  cases done with
  | false => exact Ends.pure ⟨fun nonneg => absurd (show (-1 : Int) < 0 by decide) nonneg, same, total, more'⟩
  | true =>
    apply (pagewalkDeref_ends old' USTACKBOTTOM u).bind
    intro old'' v walked
    have walk := walked.pages
    have less := walked.used rfl
    apply (mapUstack_ends v (r := k) ?_ (by omega)).bind
    · rintro ⟨mapped, new''⟩ w ⟨image, pages, grown⟩
      apply Ends.pure
      refine ⟨fun nonneg => ?_, fun va => (walked.pte va).trans (same va), by simp only at *; omega, by simp only at *; omega⟩
      cases mapped with
      | false => exact absurd (show (-1 : Int) < 0 by decide) nonneg
      | true =>
        simp only [Nat.zero_add] at before ended
        rw [PAGEROUNDUP_eq (by omega) (ended trivial) before, Nat.mul_div_cancel _ (by decide)]
        exact ⟨image rfl, by simp only at *; omega⟩
    · intro n lt
      rw [maps n lt]
      exact iff_of_eq (false_or _)

/-- Every table of a level is freed. -/
theorem freeTable_ends {α : Type} {sub : α → MmM Unit} {w : α → Nat}
    (frees : ∀ x s, Ends PagePanic (sub x) s fun _ u => u.free = s.free + w x) (t : Table (Fin 512) PageNo α) (s : Kallocator) :
    Ends PagePanic (freeTable sub t) s fun _ u => u.free = s.free + t.weight 1 w := by
  have each : ∀ (g : Fin 512 → MmM Unit), (∀ i s, Ends PagePanic (g i) s fun _ u => u.free = s.free + (t.entry i).elim 0 w) →
      ∀ (is : List (Fin 512)) (s : Kallocator),
        Ends PagePanic (is.forM g) s fun _ u => u.free = s.free + (is.map fun i => (t.entry i).elim 0 w).sum := by
    intro g one is
    induction is with
    | nil => exact fun s => Ends.pure rfl
    | cons i is ih =>
      intro s
      rw [List.forM, List.map_cons, List.sum_cons]
      apply (one i s).bind
      intro _ u freed
      exact (ih u).mono fun _ v rest => by omega
  unfold freeTable
  apply (each _ ?_ (List.finRange 512) s).bind
  rotate_left
  · intro i s
    cases t.entry i with
    | none => exact Ends.pure rfl
    | some x => exact frees x s
  intro _ u freed
  apply (kfree_ends u t.name).mono
  intro _ v last
  rw [last, freed, Table.weight, Fin.sum_univ_def]
  omega

theorem PageTable.free_ends (t : PageTable) (s : Kallocator) :
    Ends PagePanic t.free s fun _ u => u.free ≤ s.free + t.pages := by
  have third : ∀ (l3 : Level3) s, Ends PagePanic (freeTable (fun _ => pure ()) l3) s fun _ u =>
      u.free = s.free + l3.weight 1 fun _ => 0 := freeTable_ends fun x s => Ends.pure rfl
  have second := fun (l2 : Level2) s => freeTable_ends third l2 s
  apply (freeTable_ends second t s).mono
  intro _ u freed
  rw [freed]
  apply Nat.add_le_add_left
  apply t.weight_mono
  intro l2
  apply l2.weight_mono
  intro l3
  exact l3.weight_mono fun _ => Nat.zero_le 1

/-- `pageunmap` of mapped pages. -/
theorem pageunmap_ends {mapped : Nat → Prop} {a count : Nat} (s : Kallocator) (maps : t.Maps mapped)
    (there : ∀ n, a ≤ n → n < a + count → mapped n) (low : a + count ≤ 2 ^ 27) :
    Ends PagePanic (pageunmap t (a * PAGESIZE) (count * PAGESIZE)) s fun t' u =>
      (t'.Maps fun n => mapped n ∧ ¬ (a ≤ n ∧ n < a + count)) ∧ u.free + t'.pages = s.free + t.pages := by
  unfold pageunmap
  rw [if_neg (by simp), Nat.mul_div_cancel _ (by decide)]
  exact unmapPages_ends count s maps there low

/-- `free_userspace` of a process that maps what its size says, and its stack. -/
theorem freeUserspace_mapped {mapped : Nat → Prop} (s : Kallocator) (maps : t.Maps mapped)
    (there : ∀ n, 1 ≤ n → n < 1 + PAGEROUNDUP size / PAGESIZE → mapped n) (stack : mapped STACKPAGE)
    (low : 1 + PAGEROUNDUP size / PAGESIZE ≤ STACKPAGE) :
    Ends PagePanic (freeUserspace t size) s fun _ u => u.free ≤ s.free + t.pages := by
  have top : STACKPAGE + 1 ≤ 2 ^ 27 := by decide
  unfold freeUserspace
  rw [← PAGEROUNDUP_pages size, show 0x1000 = 1 * PAGESIZE from rfl, show USTACKBOTTOM = STACKPAGE * PAGESIZE by decide]
  apply (pageunmap_ends s maps there (by omega)).bind
  intro t' u ⟨maps', pages⟩
  have last : ∀ n, STACKPAGE ≤ n → n < STACKPAGE + 1 → mapped n ∧ ¬ (1 ≤ n ∧ n < 1 + PAGEROUNDUP size / PAGESIZE) := by
    intro n ge lt
    obtain rfl : n = STACKPAGE := by omega
    exact ⟨stack, by omega⟩
  have second := pageunmap_ends u maps' last top
  rw [Nat.one_mul] at second
  apply second.bind
  intro t'' v ⟨_, pages'⟩
  exact (t''.free_ends v).mono fun _ w freed => by omega

/-- That of a process whose pages are those its size says. -/
theorem freeUserspace_ends (s : Kallocator) (image : t.Maps (Image (PAGEROUNDUP size / PAGESIZE)))
    (low : 1 + PAGEROUNDUP size / PAGESIZE ≤ STACKPAGE) :
    Ends PagePanic (freeUserspace t size) s fun _ u => u.free ≤ s.free + t.pages :=
  freeUserspace_mapped s image (fun _ ge lt => .inl ⟨ge, lt⟩) (.inr rfl) low

theorem uva2pa_ends (t : PageTable) (va : Nat) (s : Kallocator) :
    Ends PagePanic (uva2pa t va) s fun r u =>
      (∀ va, r.2.pte va = t.pte va) ∧ u.free + r.2.pages = s.free + t.pages ∧ u.free ≤ s.free := by
  unfold uva2pa
  apply (pagewalk_ends t va s).bind
  rintro ⟨found, t'⟩ u walked
  exact Ends.pure ⟨walked.pte, walked.pages, walked.less⟩

/-- The physical address of one that is mapped. -/
theorem uva2pa_mapped {va : Nat} {pte : Pte} (there : t.pte va = some pte) (s : Kallocator) : After (uva2pa t va) s fun r _ =>
    r.1 = pte.page * PAGESIZE + va % PAGESIZE ∧ ∀ va, r.2.pte va = t.pte va := by
  unfold uva2pa
  refine (pagewalk_ends t va s).1.bind fun r u walked => ?_
  obtain ⟨found, t'⟩ := r
  have finds : found = true := walked.finds.2 (by rw [t.missing_of_pte there]; exact Nat.zero_le _)
  refine After.pure ⟨?_, walked.pte⟩
  show (if found = true then ((t'.pte va).elim 0 fun pte => pte.page * PAGESIZE) + va % PAGESIZE else 0) = _
  rw [if_pos finds, walked.pte va, there]
  rfl

/-- `load_prg` maps nothing. -/
theorem loadPrg_ends (t : PageTable) (va filesz : Nat) (reads : Nat → Bool) (s : Kallocator) :
    Ends PagePanic (loadPrg t va filesz reads) s fun r u =>
      (∀ va, r.2.pte va = t.pte va) ∧ u.free + r.2.pages = s.free + t.pages ∧ u.free ≤ s.free := by
  have loop : ∀ (left : Nat) (t : PageTable) (p : Nat) (s : Kallocator), Ends PagePanic (loadPages filesz reads va left t p) s
      fun r u => (∀ va, r.2.pte va = t.pte va) ∧ u.free + r.2.pages = s.free + t.pages ∧ u.free ≤ s.free := by
    intro left
    induction left with
    | zero => exact fun t p s => Ends.throw not_pagePanic_hang
    | succ left ih =>
      intro t p s
      unfold loadPages
      split
      case isFalse => exact Ends.pure ⟨fun _ => rfl, rfl, Nat.le_refl _⟩
      case isTrue =>
      apply (uva2pa_ends t ((va + p) % U64) s).bind
      rintro ⟨pa, t'⟩ u ⟨same, pages, less⟩
      dsimp only
      split
      · exact Ends.pure ⟨same, pages, less⟩
      · split
        · apply (ih t' _ u).mono
          rintro r v ⟨same', pages', less'⟩
          exact ⟨fun va => (same' va).trans (same va), pages'.trans pages, less'.trans less⟩
        · exact Ends.pure ⟨same, pages, less⟩
  unfold loadPrg
  split
  · exact Ends.pure ⟨fun _ => rfl, rfl, Nat.le_refl _⟩
  · exact loop _ t 0 s

/-- The headers of the segments that `exec` loads. -/
def loadable (phdrs : List (Option Phdr)) : List Phdr := phdrs.reduceOption.filter fun ph => ph.p_type = PT_LOAD

/-- A file has no loadable segment but one at `0x1000`. -/
def AtBase (phdrs : List (Option Phdr)) : Prop := (loadable phdrs).length ≤ 1 ∧ ∀ ph ∈ loadable phdrs, ph.p_vaddr = 0x1000

instance (phdrs : List (Option Phdr)) : Decidable (AtBase phdrs) := inferInstanceAs (Decidable (_ ∧ _))

/-- Headers without a loadable segment change nothing. -/
theorem execSegments_skip {phdrs : List (Option Phdr)} (nothing : loadable phdrs = []) (memsize : Nat) (s : Kallocator) :
    Ends PagePanic (execSegments phdrs t memsize) s fun e u => (∀ total, e.1 = some total → total = memsize) ∧ e.2 = t ∧ u = s := by
  induction phdrs with
  | nil =>
    apply Ends.pure
    refine ⟨fun total same => ?_, rfl, rfl⟩
    cases same
    rfl
  | cons ph phdrs ih =>
    cases ph with
    | none => exact Ends.pure ⟨nofun, rfl, rfl⟩
    | some ph =>
      unfold execSegments
      split
      case isTrue other =>
        apply ih
        unfold loadable at nothing ⊢
        rwa [List.reduceOption_cons_of_some, List.filter_cons_of_neg (by simpa using other)] at nothing
      case isFalse load =>
        unfold loadable at nothing
        rw [List.reduceOption_cons_of_some, List.filter_cons_of_pos (by simpa using load)] at nothing
        cases nothing

/-- The loop of `exec` on a file with at most one segment, at `0x1000`. -/
theorem execSegments_ends {phdrs : List (Option Phdr)} (base : AtBase phdrs) (s : Kallocator) (empty : t.Maps fun _ => False)
    (few : s.free ≤ 2 ^ 16) :
    Ends PagePanic (execSegments phdrs t 0) s fun e u =>
      (∀ memsize, e.1 = some memsize → e.2.Maps (fun n => 1 ≤ n ∧ n < 1 + PAGEROUNDUP memsize / PAGESIZE) ∧
        PAGEROUNDUP memsize / PAGESIZE ≤ e.2.pages ∧ memsize < U64) ∧ u.free + e.2.pages = s.free + t.pages := by
  induction phdrs with
  | nil =>
    apply Ends.pure
    refine ⟨fun memsize same => ?_, rfl⟩
    cases same
    have none : PAGEROUNDUP 0 / PAGESIZE = 0 := by decide
    rw [none]
    refine ⟨fun n lt => ?_, Nat.zero_le _, by decide⟩
    rw [empty n lt]
    exact ⟨nofun, fun inside => absurd inside.2 (by omega)⟩
  | cons ph phdrs ih =>
  cases ph with
  | none => exact Ends.pure ⟨nofun, rfl⟩
  | some ph =>
  unfold execSegments
  unfold AtBase loadable at base
  rw [List.reduceOption_cons_of_some] at base
  split
  case isTrue other =>
    rw [List.filter_cons_of_neg (by simpa using other)] at base
    exact ih base
  case isFalse load =>
  rw [List.filter_cons_of_pos (by simpa using load)] at base
  have start : ph.p_vaddr = 0x1000 := base.2 ph List.mem_cons_self
  have last : loadable phdrs = [] := List.eq_nil_of_length_eq_zero (Nat.le_zero.1 (Nat.le_of_succ_le_succ base.1))
  rw [start]
  unfold allocUserspace
  rw [bind_assoc]
  apply Ends.step (get_runs s)
  rw [bind_assoc]
  apply (allocPages_ends _ ph.p_memsz (s.free + 1) (a := 1) (b := 0) empty (fun _ _ _ => id) (by omega) (by omega)).bind
  rintro ⟨done, t'⟩ u ⟨k, le, maps, pages, more, before, ended, -⟩
  rw [pure_bind]
  cases done with
  | false => exact Ends.pure ⟨nofun, pages⟩
  | true =>
  simp only [Nat.zero_add, true_iff] at before ended
  have small : ph.p_memsz ≤ 2 ^ 28 := by
    have bound : k * PAGESIZE ≤ 2 ^ 16 * PAGESIZE := Nat.mul_le_mul_right _ (by omega)
    simp only [PAGESIZE] at *
    omega
  have int : (BitVec.ofNat 32 ph.p_memsz).toInt = ph.p_memsz := by
    rw [BitVec.toInt_eq_toNat_of_lt (by rw [BitVec.toNat_ofNat]; omega), BitVec.toNat_ofNat, Nat.mod_eq_of_lt (by omega)]
  have size : PAGEROUNDUP ph.p_memsz = k * PAGESIZE := PAGEROUNDUP_eq (by omega) ended before
  simp only [if_true, int, Int.toNat_natCast, Nat.zero_add]
  rw [if_neg (by omega), Nat.mod_eq_of_lt (by simp only [U64]; omega)]
  apply (loadPrg_ends t' 0x1000 ph.p_filesz ph.reads u).bind
  rintro ⟨r, t''⟩ v ⟨same, pages', less⟩
  have total : v.free + t''.pages = s.free + t.pages := pages'.trans pages
  dsimp only
  split
  · exact Ends.pure ⟨nofun, total⟩
  · apply (execSegments_skip last ph.p_memsz v).mono
    rintro ⟨e, t₃⟩ w ⟨sum, rfl, rfl⟩
    refine ⟨fun memsize loaded => ?_, total⟩
    obtain rfl := sum memsize loaded
    rw [size, Nat.mul_div_cancel _ (by decide)]
    refine ⟨fun n lt => ?_, by simp only at *; omega, by simp only [U64]; omega⟩
    rw [maps.congr same n lt]
    exact iff_of_eq (false_or _)

/-- `exec` of such a file. The old address space goes exactly when the call succeeds. -/
theorem execSpace_ends {file : Option (List (Option Phdr))} (base : ∀ phdrs, file = some phdrs → AtBase phdrs) (s : Kallocator)
    (argv : List Nat) (few : s.free + t.pages ≤ 2 ^ 16)
    (image : t.Maps (Image (PAGEROUNDUP size / PAGESIZE))) (low : 1 + PAGEROUNDUP size / PAGESIZE ≤ STACKPAGE) :
    Ends PagePanic (execSpace t size file argv) s fun e u =>
      (∀ new memsize, e.2 = some (new, memsize) → new.Maps (Image (PAGEROUNDUP memsize / PAGESIZE)) ∧
        PAGEROUNDUP memsize / PAGESIZE ≤ new.pages ∧ memsize < U64 ∧ u.free + new.pages ≤ s.free + t.pages) ∧ (e.2 = none → u.free ≤ s.free) := by
  have top : 2 ^ 16 + 1 ≤ STACKPAGE := by decide
  unfold execSpace
  cases file with
  | none => exact Ends.pure ⟨(by intro _ _ never; cases never), fun _ => le_rfl⟩
  | some phdrs =>
  apply (kalloc_ends s).bind
  rintro (_ | page) s' ⟨taken, -⟩
  · exact Ends.pure ⟨(by intro _ _ never; cases never), fun _ => by simp only [Option.elim_none] at taken; omega⟩
  simp only [Option.elim_some] at taken
  have none : PageTable.Maps (Table.empty page) fun _ => False := fun n _ => iff_of_false (by simp [PageTable.pte]) id
  have root : PageTable.pages (Table.empty page) = 1 := Table.weight_empty ..
  apply (execSegments_ends (base phdrs rfl) s' none (by omega)).bind
  rintro ⟨loaded, new⟩ u ⟨sized, pages⟩
  have some := new.pages_pos
  cases loaded with
  | none =>
    apply (kfree_ends u new.name).bind
    intro _ v freed
    exact Ends.pure ⟨(by intro _ _ never; cases never), fun _ => by simp only at *; omega⟩
  | some memsize =>
  obtain ⟨maps, few', small⟩ := sized memsize rfl
  dsimp only
  apply (mapUstack_ends u maps (by omega)).bind
  rintro ⟨mapped, new'⟩ v ⟨image', pages', more⟩
  cases mapped with
  | false => exact Ends.throw not_pagePanic_undefined
  | true =>
  have some' := new'.pages_pos
  simp only [Bool.not_true, Bool.false_eq_true, if_false]
  cases buildStack argv with
  | none =>
    apply (kfree_ends v new'.name).bind
    intro _ w freed
    exact Ends.pure ⟨(by intro _ _ never; cases never), fun _ => by simp only at *; omega⟩
  | some argc =>
    apply (freeUserspace_ends v image low).bind
    intro _ w freed
    apply Ends.pure
    refine ⟨fun new'' memsize' same => ?_, (by intro never; cases never)⟩
    cases same
    exact ⟨image' rfl, by simp only at *; omega, small, by simp only at *; omega⟩

/-- `grow_userspace` of such a process: it maps the pages of the new size one by one, and comes
to the last exactly when there are enough for them and the tables they need. -/
theorem growUserspace_ends {newsz b : Nat} (s : Kallocator) (whole : PAGEROUNDUP size = b * PAGESIZE) (image : t.Maps (Image b))
    (few : s.free + b ≤ 2 ^ 16) :
    Ends PagePanic (growUserspace t 0x1000 size newsz) s fun g u => u.free + g.2.pages = s.free + t.pages ∧
      ∃ k ≤ s.free, t.pages + k ≤ g.2.pages ∧ g.2.Maps (Image (b + k)) ∧ (∀ j < k, b * PAGESIZE + j * PAGESIZE < newsz) ∧
        (newsz ≤ b * PAGESIZE + k * PAGESIZE ↔ need t.missing (rounds b newsz) (0x1000 + b * PAGESIZE) ≤ s.free) ∧
        (b * PAGESIZE + k * PAGESIZE < newsz → k = 0 → s.free = 0) := by
  have top : 2 ^ 16 + 1 < STACKPAGE := by decide
  have top' : STACKPAGE < 2 ^ 27 := by decide
  have start : 0x1000 + b * PAGESIZE = (1 + b) * PAGESIZE := by rw [Nat.add_mul, Nat.one_mul]
  unfold growUserspace
  dsimp only
  apply Ends.step (get_runs s)
  rw [whole, start, Nat.mod_eq_of_lt (by simp only [PAGESIZE, U64]; omega)]
  apply (allocPages_ends _ newsz (s.free + 1) (a := 1 + b) (b := b) image ?_ (by omega) (by omega)).bind
  · rintro ⟨done, t'⟩ u ⟨k, le, maps, pages, grown, before, ended, fits, none⟩
    apply Ends.pure
    refine ⟨pages, k, le, grown, fun n lt => ?_, ?_, ?_, fun more => none ?_⟩
    · rw [maps n lt]
      unfold Image
      omega
    · intro j lt
      rw [← Nat.add_mul]
      exact before j lt
    · rw [← Nat.add_mul, ← ended, fits]
    · rw [← Nat.add_mul] at more
      exact Bool.eq_false_iff.2 fun last => absurd (ended.1 last) (by omega)
  · rintro n ge lt (low | stack)
    · omega
    · omega

/-- After `k` more pages the image is as long as the new size says exactly when they are all, or
when there was none to take and none to map. -/
theorem grown_iff {newsz b k free : Nat} (lt : newsz < U64) (above : b = 0 ∨ (b - 1) * PAGESIZE < newsz)
    (before : ∀ j < k, b * PAGESIZE + j * PAGESIZE < newsz) (none : b * PAGESIZE + k * PAGESIZE < newsz → k = 0 → free = 0)
    (le : k ≤ free) (low : b + k < 2 ^ 50) :
    PAGEROUNDUP newsz = (b + k) * PAGESIZE ↔
      free = 0 ∧ PAGEROUNDUP newsz = b * PAGESIZE ∨ newsz ≤ b * PAGESIZE + k * PAGESIZE := by
  constructor
  · intro eq
    rcases Nat.lt_or_ge (b * PAGESIZE + k * PAGESIZE) newsz with more | enough
    · -- the new size is past the last page there is, and rounds to 0
      rcases PAGEROUNDUP_bounds lt eq with zero | ⟨enough, -⟩
      · have k0 : k = 0 := by omega
        have b0 : b = 0 := by omega
        subst k0 b0
        exact .inl ⟨none more rfl, eq⟩
      · rw [Nat.add_mul] at enough
        omega
    · exact .inr enough
  · rintro (⟨zero, eq⟩ | enough)
    · obtain rfl : k = 0 := by omega
      exact eq
    · rw [← Nat.add_mul] at enough
      apply PAGEROUNDUP_eq low enough
      intro j lt
      rcases Nat.lt_or_ge j b with old | new
      · have last : j * PAGESIZE ≤ (b - 1) * PAGESIZE := Nat.mul_le_mul_right _ (by omega)
        exact last.trans_lt (above.resolve_left (by omega))
      · have later := before (j - b) (by omega)
        rwa [← Nat.add_mul, Nat.add_sub_cancel' new] at later

/-- Images of different length map different pages. -/
theorem PageTable.Maps.image_inj {b b' : Nat} (h : t.Maps (Image b)) (h' : t.Maps (Image b')) (low : b ≤ 2 ^ 17) : b = b' := by
  have top : 2 ^ 17 + 1 < STACKPAGE := by decide
  have top' : STACKPAGE < 2 ^ 27 := by decide
  have same : ∀ n < 2 ^ 27, Image b n ↔ Image b' n := fun n lt => (h n lt).symm.trans (h' n lt)
  rcases Nat.lt_trichotomy b b' with less | eq | more
  · rcases (same (1 + b) (by omega)).2 (.inl ⟨by omega, by omega⟩) with inside | stack
    · omega
    · omega
  · exact eq
  · rcases (same (1 + b') (by omega)).1 (.inl ⟨by omega, by omega⟩) with inside | stack
    · omega
    · omega

end Spaces

end Aarch64Os.Kernel
