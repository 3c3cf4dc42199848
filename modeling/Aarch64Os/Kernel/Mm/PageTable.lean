import Aarch64Os.Base.TableTree
import Aarch64Os.Kernel.Mm.Kalloc

/-!
# Page tables (`kernel/mm.c`)

A user page table is a tree of three levels of 512 entries, each table in a page of its own.
`pagewalk` goes down to the third level and allocates the tables it does not find, also when
it is only asked for an entry. An address is a 64-bit number, of which the walk uses bits 12
to 38. A third-level entry is not there, or has been made by `pagemap`.
-/

namespace Aarch64Os.Kernel
set_option autoImplicit false
open Base

/-- `u64` arithmetic. -/
abbrev U64 : Nat := 2 ^ 64

/-- A table has entries. -/
instance tableEntries : NeZero 512 := ⟨by decide⟩

/-- `PIDX`. -/
def PIDX (level va : Nat) : Fin 512 := Fin.ofNat 512 (va / 2 ^ (39 - level * 9))

/-- A third-level entry: `PTE_PA` as a page, and the attributes. -/
structure Pte where
  page : PageNo
  attr : BitVec 64

/-- The tables of the third and of the second level, and a whole page table. -/
abbrev Level3 := Table (Fin 512) PageNo Pte
abbrev Level2 := Table (Fin 512) PageNo Level3
abbrev PageTable := Table (Fin 512) PageNo Level2

/-- The third-level entry of an address. -/
def PageTable.pte (t : PageTable) (va : Nat) : Option Pte :=
  (t.entry (PIDX 1 va)).bind fun l2 => (l2.entry (PIDX 2 va)).bind fun l3 => l3.entry (PIDX 3 va)

/-- `*pte = x`, where the walk has come to an entry. -/
def PageTable.setPte (t : PageTable) (va : Nat) (x : Option Pte) : PageTable :=
  t.put (PIDX 1 va) ((t.entry (PIDX 1 va)).map fun l2 =>
    l2.put (PIDX 2 va) ((l2.entry (PIDX 2 va)).map fun l3 => l3.put (PIDX 3 va) x))

/-- A round of the loop of `pagewalk`: the table behind entry `i`, a new one if there is none. -/
def nextTable {α : Type} (t : Table (Fin 512) PageNo (Table (Fin 512) PageNo α)) (i : Fin 512) :
    MmM (Option (Table (Fin 512) PageNo α)) :=
  match t.entry i with
  | some pgt => pure (some pgt)
  | none => do
    let page ← kalloc
    pure (page.map Table.empty)

/-- `pagewalk`: whether it has come to an entry, and the tables. -/
def pagewalk (pgt : PageTable) (va : Nat) : MmM (Bool × PageTable) := do
  match ← nextTable pgt (PIDX 1 va) with
  | none => pure (false, pgt)
  | some l2 =>
    match ← nextTable l2 (PIDX 2 va) with
    | none => pure (false, pgt.put (PIDX 1 va) (some l2))
    | some l3 => pure (true, pgt.put (PIDX 1 va) (some (l2.put (PIDX 2 va) (some l3))))

/-- `pagewalk`, where the caller uses the entry without a check. -/
def pagewalkDeref (pgt : PageTable) (va : Nat) : MmM PageTable := do
  let (found, pgt) ← pagewalk pgt va
  if found then pure pgt else throw .undefined

/-- The loop of `pagemap`; `left` pages are to come. -/
def mapPages (attr : BitVec 64) : Nat → PageTable → Nat → Nat → MmM PageTable
  | 0, pgt, _, _ => pure pgt
  | left + 1, pgt, va, pa => do
    let pgt ← pagewalkDeref pgt va
    if (pgt.pte va).isSome then throw (.panic "this entry has been used")
    else
      let pgt := pgt.setPte va (some { page := pa / PAGESIZE % 2 ^ 36, attr })
      mapPages attr left pgt ((va + PAGESIZE) % U64) ((pa + PAGESIZE) % U64)

/-- `pagemap`. -/
def pagemap (pgt : PageTable) (va pa size : Nat) (attr : BitVec 64) : MmM PageTable :=
  if va % PAGESIZE ≠ 0 ∨ pa % PAGESIZE ≠ 0 ∨ size % PAGESIZE ≠ 0 then throw (.panic "invalid pagemap")
  else mapPages attr (size / PAGESIZE) pgt va pa

/-- The loop of `pageunmap`. -/
def unmapPages : Nat → PageTable → Nat → MmM PageTable
  | 0, pgt, _ => pure pgt
  | left + 1, pgt, va => do
    let pgt ← pagewalkDeref pgt va
    match pgt.pte va with
    | none => throw (.panic "bad unmap")
    | some pte =>
      kfree pte.page
      unmapPages left (pgt.setPte va none) ((va + PAGESIZE) % U64)

/-- `pageunmap`. -/
def pageunmap (pgt : PageTable) (va size : Nat) : MmM PageTable :=
  if va % PAGESIZE ≠ 0 ∨ size % PAGESIZE ≠ 0 then throw (.panic "invalid pageunmap")
  else unmapPages (size / PAGESIZE) pgt va

/-- `free_table`, with what it does behind an entry that is a table. -/
def freeTable {α : Type} (sub : α → MmM Unit) (pgt : Table (Fin 512) PageNo α) : MmM Unit := do
  (List.finRange 512).forM fun i =>
    match pgt.entry i with
    | some pte => sub pte
    | none => pure ()
  kfree pgt.name

/-- `free_table` of a whole page table; third-level entries are no tables. -/
def PageTable.free (pgt : PageTable) : MmM Unit := freeTable (freeTable (freeTable fun _ => pure ())) pgt

/-- The pages of a page table: those of its tables, and those it maps. -/
def PageTable.pages (t : PageTable) : Nat := t.weight 1 (Table.weight 1 (Table.weight 1 fun _ => 1))

theorem PageTable.pages_pos (t : PageTable) : 0 < t.pages := by
  unfold PageTable.pages Table.weight
  omega

/-- The tables that are still missing on the way to an entry. -/
def PageTable.missing (t : PageTable) (va : Nat) : Nat :=
  match t.entry (PIDX 1 va) with
  | none => 2
  | some l2 => if (l2.entry (PIDX 2 va)).isNone then 1 else 0

/-- The tables missing once the walk has come to the entry of `va`. -/
def touch (missing : Nat → Nat) (va va' : Nat) : Nat :=
  if PIDX 1 va' = PIDX 1 va then if PIDX 2 va' = PIDX 2 va then 0 else min 1 (missing va') else missing va'

section Walk
variable {t : PageTable} {va va' : Nat} {x : Option Pte} {s : Kallocator}

/-- Two addresses the walk tells apart. -/
theorem PIDX_ne (ne : va / PAGESIZE % 2 ^ 27 ≠ va' / PAGESIZE % 2 ^ 27) :
    PIDX 1 va ≠ PIDX 1 va' ∨ PIDX 2 va ≠ PIDX 2 va' ∨ PIDX 3 va ≠ PIDX 3 va' := by
  by_contra same
  push Not at same
  obtain ⟨one, two, three⟩ := same
  simp only [PIDX, PAGESIZE, Fin.ext_iff, Fin.ofNat] at ne one two three
  norm_num at ne one two three
  omega

/-- Addresses in one page. -/
theorem PIDX_page (same : va / PAGESIZE = va' / PAGESIZE) {level : Nat} (le : level ≤ 3) : PIDX level va = PIDX level va' := by
  unfold PIDX
  congr 1
  have split : 2 ^ (39 - level * 9) = PAGESIZE * 2 ^ (27 - level * 9) := by
    rw [show 39 - level * 9 = 12 + (27 - level * 9) by omega, Nat.pow_add]
  rw [split, ← Nat.div_div_eq_div_mul, ← Nat.div_div_eq_div_mul, same]

theorem PageTable.pte_page (t : PageTable) (same : va / PAGESIZE = va' / PAGESIZE) : t.pte va = t.pte va' := by
  unfold PageTable.pte
  rw [PIDX_page same (by decide : 1 ≤ 3), PIDX_page same (by decide : 2 ≤ 3), PIDX_page same (by decide : 3 ≤ 3)]

/-- The tables on the way to an entry. -/
theorem PageTable.tables (ready : t.missing va = 0) :
    ∃ l2 l3, t.entry (PIDX 1 va) = some l2 ∧ l2.entry (PIDX 2 va) = some l3 := by
  unfold PageTable.missing at ready
  split at ready
  case h_1 => cases ready
  case h_2 l2 found =>
    cases found' : l2.entry (PIDX 2 va) with
    | none => simp [found'] at ready
    | some l3 => exact ⟨l2, l3, found, found'⟩

/-- An entry that is there has its tables. -/
theorem PageTable.missing_of_pte {pte : Pte} (there : t.pte va = some pte) : t.missing va = 0 := by
  unfold PageTable.pte at there
  unfold PageTable.missing
  obtain ⟨l2, first, rest⟩ := Option.bind_eq_some_iff.1 there
  obtain ⟨l3, second, -⟩ := Option.bind_eq_some_iff.1 rest
  simp [first, second]

/-- The entry that has been set. -/
theorem PageTable.pte_setPte (ready : t.missing va = 0) (same : va' / PAGESIZE = va / PAGESIZE) : (t.setPte va x).pte va' = x := by
  obtain ⟨l2, l3, first, second⟩ := t.tables ready
  rw [PageTable.pte_page _ same]
  simp [PageTable.pte, PageTable.setPte, first, second]

/-- The others are as they were. -/
theorem PageTable.pte_setPte_ne (t : PageTable) (x : Option Pte) (ne : va' / PAGESIZE % 2 ^ 27 ≠ va / PAGESIZE % 2 ^ 27) :
    (t.setPte va x).pte va' = t.pte va' := by
  unfold PageTable.pte PageTable.setPte
  rcases eq_or_ne (PIDX 1 va') (PIDX 1 va) with one | one
  · rw [one, Table.put_self]
    cases t.entry (PIDX 1 va) with
    | none => rfl
    | some l2 =>
    rcases eq_or_ne (PIDX 2 va') (PIDX 2 va) with two | two
    · simp only [Option.map_some, Option.bind_some, two, Table.put_self]
      cases l2.entry (PIDX 2 va) with
      | none => rfl
      | some l3 =>
        have three : PIDX 3 va' ≠ PIDX 3 va := ((PIDX_ne ne).resolve_left (not_not.2 one)).resolve_left (not_not.2 two)
        simp only [Option.map_some, Option.bind_some, Table.put_ne _ _ three]
    · simp only [Option.map_some, Option.bind_some, Table.put_ne _ _ two]
  · rw [Table.put_ne _ _ one]

/-- No table comes or goes. -/
theorem PageTable.missing_setPte (t : PageTable) (va : Nat) (x : Option Pte) : (t.setPte va x).missing = t.missing := by
  funext va'
  unfold PageTable.missing PageTable.setPte
  rcases eq_or_ne (PIDX 1 va') (PIDX 1 va) with one | one
  · rw [one, Table.put_self]
    cases t.entry (PIDX 1 va) with
    | none => rfl
    | some l2 =>
    rcases eq_or_ne (PIDX 2 va') (PIDX 2 va) with two | two
    · simp only [Option.map_some, two, Table.put_self, Option.isNone_map]
    · simp only [Option.map_some, Table.put_ne _ _ two]
  · rw [Table.put_ne _ _ one]

/-- The pages of the table, with the old and the new entry. -/
theorem PageTable.pages_setPte (ready : t.missing va = 0) :
    (t.setPte va x).pages + (t.pte va).elim 0 (fun _ => 1) = t.pages + x.elim 0 fun _ => 1 := by
  obtain ⟨l2, l3, first, second⟩ := t.tables ready
  have moved3 := Table.weight_put 1 (fun _ : Pte => 1) l3 (PIDX 3 va) x
  have moved2 := Table.weight_put 1 (Table.weight 1 fun _ : Pte => 1) l2 (PIDX 2 va) (some (l3.put (PIDX 3 va) x))
  have moved1 := Table.weight_put 1 (Table.weight 1 (Table.weight 1 fun _ : Pte => 1)) t (PIDX 1 va)
    (some (l2.put (PIDX 2 va) (some (l3.put (PIDX 3 va) x))))
  simp only [first, second, Option.elim_some] at moved2 moved1
  simp only [PageTable.pages, PageTable.setPte, PageTable.pte, first, second, Option.map_some, Option.bind_some]
  omega

/-- The table behind an entry, as it was or new. -/
theorem nextTable_ends {α : Type} (t : Table (Fin 512) PageNo (Table (Fin 512) PageNo α)) (i : Fin 512) (s : Kallocator) :
    Ends PagePanic (nextTable t i) s fun r u =>
      (∃ next, t.entry i = some next ∧ r = some next ∧ u.free = s.free) ∨
      (t.entry i = none ∧ r = none ∧ s.free = 0 ∧ u.free = 0) ∨
      t.entry i = none ∧ (∃ page, r = some (Table.empty page)) ∧ u.free + 1 = s.free := by
  unfold nextTable
  cases entry : t.entry i with
  | some next => exact Ends.pure (.inl ⟨next, rfl, rfl, rfl⟩)
  | none =>
    apply (kalloc_ends s).bind
    rintro (_ | page) u ⟨free, none⟩
    · apply Ends.pure
      have zero : s.free = 0 := none.1 rfl
      exact .inr (.inl ⟨rfl, rfl, zero, by simp only [Option.elim_none] at free; omega⟩)
    · exact Ends.pure (.inr (.inr ⟨rfl, ⟨page, rfl⟩, free⟩))

/-- What a walk to `va` does to the table. -/
structure Walked (t : PageTable) (va : Nat) (s : Kallocator) (found : Bool) (t' : PageTable) (u : Kallocator) : Prop where
  pte : ∀ va', t'.pte va' = t.pte va'
  pages : u.free + t'.pages = s.free + t.pages
  less : u.free ≤ s.free
  finds : found = true ↔ t.missing va ≤ s.free
  used : found = true → u.free + t.missing va = s.free
  missing : found = true → t'.missing = touch t.missing va

/-- A second-level table with the same entries behind it is put in. -/
theorem PageTable.pte_put (t : PageTable) {i : Fin 512} {l2 : Level2}
    (same : ∀ j k, ((l2.entry j).bind fun l3 => l3.entry k) = (t.entry i).bind fun l2 => (l2.entry j).bind fun l3 => l3.entry k)
    (va' : Nat) : PageTable.pte (t.put i (some l2)) va' = t.pte va' := by
  unfold PageTable.pte
  rcases eq_or_ne (PIDX 1 va') i with rfl | one
  · rw [Table.put_self, Option.bind_some, same]
  · rw [Table.put_ne _ _ one]

theorem PageTable.pages_put (t : PageTable) (i : Fin 512) (l2 : Level2) :
    PageTable.pages (t.put i (some l2)) + (t.entry i).elim 0 (Table.weight 1 (Table.weight 1 fun _ => 1)) =
      t.pages + l2.weight 1 (Table.weight 1 fun _ => 1) :=
  Table.weight_put 1 (Table.weight 1 (Table.weight 1 fun _ : Pte => 1)) t i (some l2)

/-- The third-level table `l3` is put in behind both entries. -/
theorem PageTable.pte_put_put (t : PageTable) {i j : Fin 512} {l2 : Level2} {l3 : Level3}
    (behind : ∀ j, l2.entry j = (t.entry i).bind fun l2 => l2.entry j)
    (same : ∀ k, l3.entry k = (l2.entry j).bind fun l3 => l3.entry k) (va' : Nat) :
    PageTable.pte (t.put i (some (l2.put j (some l3)))) va' = t.pte va' := by
  apply t.pte_put
  intro j' k
  rw [← Option.bind_assoc, ← behind]
  rcases eq_or_ne j' j with rfl | two
  · rw [Table.put_self, Option.bind_some, same]
  · rw [Table.put_ne _ _ two]

/-- Then only entries the walk has not come to have tables missing. -/
theorem PageTable.missing_put_put (t : PageTable) (va : Nat) {l2 : Level2} {l3 : Level3}
    (behind : ∀ j, l2.entry j = (t.entry (PIDX 1 va)).bind fun l2 => l2.entry j) :
    PageTable.missing (t.put (PIDX 1 va) (some (l2.put (PIDX 2 va) (some l3)))) = touch t.missing va := by
  funext va'
  unfold PageTable.missing touch
  rcases eq_or_ne (PIDX 1 va') (PIDX 1 va) with one | one
  · rw [one, Table.put_self, if_pos rfl]
    rcases eq_or_ne (PIDX 2 va') (PIDX 2 va) with two | two
    · simp [two]
    · simp only [Table.put_ne _ _ two, behind, if_neg two, one]
      cases t.entry (PIDX 1 va) with
      | none => rfl
      | some l2 =>
        simp only [Option.bind_some]
        split <;> rfl
  · rw [Table.put_ne _ _ one, if_neg one]

/-- The second round of a walk, in the table `l2` that is behind the first entry, or is new there. -/
theorem pagewalk_second (t : PageTable) (va : Nat) {l2 : Level2} {s u : Kallocator} (new : Nat)
    (behind : ∀ j, l2.entry j = (t.entry (PIDX 1 va)).bind fun l2 => l2.entry j)
    (weight : l2.weight 1 (Table.weight 1 fun _ => 1) = (t.entry (PIDX 1 va)).elim 0 (Table.weight 1 (Table.weight 1 fun _ => 1)) + new)
    (taken : u.free + new = s.free) (total : t.missing va = new + if (l2.entry (PIDX 2 va)).isNone then 1 else 0) :
    Ends PagePanic (nextTable l2 (PIDX 2 va) >>= fun
      | none => pure (false, t.put (PIDX 1 va) (some l2))
      | some l3 => pure (true, t.put (PIDX 1 va) (some (l2.put (PIDX 2 va) (some l3))))) u
      fun r v => Walked t va s r.1 r.2 v := by
  apply (nextTable_ends l2 (PIDX 2 va) u).bind
  rintro r v (⟨l3, entry, rfl, free⟩ | ⟨entry, rfl, zero, free⟩ | ⟨entry, ⟨page, rfl⟩, free⟩)
  · apply Ends.pure
    have pages := t.pages_put (PIDX 1 va) (l2.put (PIDX 2 va) (some l3))
    have weight' := Table.weight_put 1 (Table.weight 1 fun _ : Pte => 1) l2 (PIDX 2 va) (some l3)
    simp only [entry, Option.elim_some, Option.isNone_some, Bool.false_eq_true, if_false] at weight' total
    constructor
    · apply t.pte_put_put behind
      simp [entry]
    · simp only
      omega
    · omega
    · exact ⟨fun _ => by omega, fun _ => rfl⟩
    · exact fun _ => by omega
    · exact fun _ => t.missing_put_put va behind
  · apply Ends.pure
    have pages := t.pages_put (PIDX 1 va) l2
    simp only [entry, Option.isNone_none, if_true] at total
    constructor
    · apply t.pte_put
      intro j k
      rw [behind, Option.bind_assoc]
    · simp only
      omega
    · omega
    · exact ⟨nofun, fun _ => by omega⟩
    · nofun
    · nofun
  · apply Ends.pure
    have pages := t.pages_put (PIDX 1 va) (l2.put (PIDX 2 va) (some (Table.empty page)))
    have weight' := Table.weight_put 1 (Table.weight 1 fun _ : Pte => 1) l2 (PIDX 2 va) (some (Table.empty page))
    simp only [entry, Option.elim_some, Option.elim_none, Option.isNone_none, if_true, Table.weight_empty] at weight' total
    constructor
    · apply t.pte_put_put behind
      simp [entry]
    · simp only
      omega
    · omega
    · exact ⟨fun _ => by omega, fun _ => rfl⟩
    · exact fun _ => by omega
    · exact fun _ => t.missing_put_put va behind

theorem pagewalk_ends (t : PageTable) (va : Nat) (s : Kallocator) :
    Ends PagePanic (pagewalk t va) s fun r u => Walked t va s r.1 r.2 u := by
  unfold pagewalk
  apply (nextTable_ends t (PIDX 1 va) s).bind
  rintro r u (⟨l2, entry, rfl, free⟩ | ⟨entry, rfl, zero, free⟩ | ⟨entry, ⟨page, rfl⟩, free⟩)
  · refine pagewalk_second t va 0 ?_ ?_ free ?_
    · intro j
      rw [entry, Option.bind_some]
    · rw [entry, Option.elim_some, Nat.add_zero]
    · simp [PageTable.missing, entry]
  · apply Ends.pure
    have two : t.missing va = 2 := by simp [PageTable.missing, entry]
    constructor
    · exact fun _ => rfl
    · simp only
      omega
    · omega
    · simp [two, zero]
    · nofun
    · nofun
  · refine pagewalk_second t va 1 ?_ ?_ free ?_
    · intro j
      rw [entry]
      rfl
    · rw [entry, Table.weight_empty]
      rfl
    · simp [PageTable.missing, entry]

/-- A walk whose entry is used. -/
theorem pagewalkDeref_ends (t : PageTable) (va : Nat) (s : Kallocator) :
    Ends PagePanic (pagewalkDeref t va) s fun t' u => Walked t va s true t' u := by
  unfold pagewalkDeref
  apply (pagewalk_ends t va s).bind
  rintro ⟨found, t'⟩ u walked
  cases found with
  | false => exact Ends.throw not_pagePanic_undefined
  | true => exact Ends.pure walked

/-- After a walk the entry's tables are there. -/
theorem Walked.ready {u : Kallocator} {t' : PageTable} (walked : Walked t va s true t' u) : t'.missing va = 0 := by
  rw [walked.missing rfl]
  simp [touch]

end Walk

/-- The page numbers a table maps, of those a walk tells apart. -/
def PageTable.Maps (t : PageTable) (mapped : Nat → Prop) : Prop := ∀ n < 2 ^ 27, (t.pte (n * PAGESIZE)).isSome ↔ mapped n

theorem PageTable.Maps.congr {t t' : PageTable} {mapped : Nat → Prop} (h : t.Maps mapped) (same : ∀ va, t'.pte va = t.pte va) :
    t'.Maps mapped := by
  intro n lt
  rw [same]
  exact h n lt

/-- One entry is set or cleared. -/
theorem PageTable.Maps.setPte {t : PageTable} {mapped : Nat → Prop} {n : Nat} (h : t.Maps mapped) (lt : n < 2 ^ 27)
    (ready : t.missing (n * PAGESIZE) = 0) (x : Option Pte) :
    (t.setPte (n * PAGESIZE) x).Maps fun m => if m = n then x.isSome = true else mapped m := by
  intro m ltm
  show _ ↔ if m = n then x.isSome = true else mapped m
  rcases eq_or_ne m n with rfl | ne
  · rw [if_pos rfl, PageTable.pte_setPte ready rfl]
  · rw [if_neg ne, PageTable.pte_setPte_ne]
    · exact h m ltm
    · rw [Nat.mul_div_cancel _ (by decide), Nat.mul_div_cancel _ (by decide), Nat.mod_eq_of_lt ltm, Nat.mod_eq_of_lt lt]
      exact ne

/-- `pagemap` of one page that is not mapped yet. -/
theorem pagemap_ends {t : PageTable} {mapped : Nat → Prop} {n : Nat} (h : t.Maps mapped) (lt : n < 2 ^ 27) (new : ¬ mapped n)
    (page : PageNo) (attr : BitVec 64) (s : Kallocator) :
    Ends PagePanic (pagemap t (n * PAGESIZE) (page * PAGESIZE) PAGESIZE attr) s fun t' u =>
      (t'.Maps fun m => m = n ∨ mapped m) ∧ u.free + t'.pages = s.free + t.pages + 1 ∧
        u.free + t.missing (n * PAGESIZE) = s.free ∧ t'.missing = touch t.missing (n * PAGESIZE) := by
  unfold pagemap
  rw [if_neg (by simp), Nat.div_self (by decide)]
  unfold mapPages
  apply (pagewalkDeref_ends t (n * PAGESIZE) s).bind
  intro t' u walked
  have clear : (t'.pte (n * PAGESIZE)).isSome = false := by
    rw [walked.pte]
    simpa using mt (h n lt).1 new
  rw [if_neg (by simp [clear])]
  apply Ends.pure
  have pages := PageTable.pages_setPte (x := some { page := page * PAGESIZE / PAGESIZE % 2 ^ 36, attr }) walked.ready
  have kept := walked.pages
  rw [Option.isSome_eq_false_iff, Option.isNone_iff_eq_none] at clear
  rw [clear] at pages
  refine ⟨?_, ?_, walked.used rfl, ?_⟩
  · intro m ltm
    rw [(h.congr walked.pte).setPte lt walked.ready _ m ltm]
    rcases eq_or_ne m n with here | other
    · simp [here]
    · simp [other]
  · simp only [Option.elim_none, Option.elim_some] at pages
    omega
  · rw [PageTable.missing_setPte, walked.missing rfl]

/-- The loop of `pageunmap` over pages that are mapped. -/
theorem unmapPages_ends (left : Nat) : ∀ {t : PageTable} {mapped : Nat → Prop} {a : Nat} (s : Kallocator), t.Maps mapped →
    (∀ n, a ≤ n → n < a + left → mapped n) → a + left ≤ 2 ^ 27 →
    Ends PagePanic (unmapPages left t (a * PAGESIZE)) s fun t' u =>
      (t'.Maps fun n => mapped n ∧ ¬ (a ≤ n ∧ n < a + left)) ∧ u.free + t'.pages = s.free + t.pages := by
  induction left with
  | zero =>
    intro t mapped a s h there below
    apply Ends.pure
    refine ⟨fun n lt => ?_, rfl⟩
    rw [h n lt]
    exact ⟨fun m => ⟨m, by omega⟩, And.left⟩
  | succ left ih =>
    intro t mapped a s h there below
    unfold unmapPages
    apply (pagewalkDeref_ends t (a * PAGESIZE) s).bind
    intro t' u walked
    have used : (t'.pte (a * PAGESIZE)).isSome := by
      rw [walked.pte]
      exact (h a (by omega)).2 (there a le_rfl (by omega))
    obtain ⟨pte, entry⟩ := Option.isSome_iff_exists.1 used
    rw [entry]
    apply (kfree_ends u pte.page).bind
    intro _ v freed
    have next : (a * PAGESIZE + PAGESIZE) % U64 = (a + 1) * PAGESIZE := by
      rw [Nat.mod_eq_of_lt (by simp only [PAGESIZE, U64]; omega), Nat.add_mul, Nat.one_mul]
    have pages := PageTable.pages_setPte (x := none) walked.ready
    have kept := walked.pages
    simp only [entry, Option.elim_some, Option.elim_none] at pages
    rw [next]
    apply (ih v ((h.congr walked.pte).setPte (by omega) walked.ready none) ?_ (by omega)).mono
    · rintro t'' w ⟨maps, total⟩
      refine ⟨fun n lt => ?_, by omega⟩
      rw [maps n lt]
      show (if n = a then (none : Option Pte).isSome = true else mapped n) ∧ _ ↔ mapped n ∧ _
      rcases eq_or_ne n a with rfl | ne
      · simp
      · rw [if_neg ne]
        exact and_congr_right fun _ => by omega
    · intro n ge lt
      rw [if_neg (by omega)]
      exact there n (by omega) (by omega)

end Aarch64Os.Kernel
