import Aarch64Os.Base.Returns
import Aarch64Os.Kernel.Mm.PageCount

/-!
# Which pages a table consists of (`kernel/mm.c`)

The pages of a table, each as often as it occurs, and those on the free list are together the same
before a function of `mm.c` and after it. So where none occurs twice before, none does after.
-/

namespace Aarch64Os.Kernel
set_option autoImplicit false
open Base

/-- The pages of the tables in a page table, with those that `leaf` gives for a third-level entry. -/
def PageTable.pageNames (leaf : Pte → Multiset PageNo) (t : PageTable) : Multiset PageNo :=
  Table.names (Table.names (Table.names leaf)) t

/-- The pages of its tables. -/
def PageTable.tablePages (t : PageTable) : Multiset PageNo := t.pageNames fun _ => 0

/-- The pages of its tables, and those it maps. -/
def PageTable.owned (t : PageTable) : Multiset PageNo := t.pageNames fun pte => {pte.page}

/-- The free pages. -/
def Kallocator.pool (s : Kallocator) : Multiset PageNo := ↑s.freelist

/-- The third-level table on the way to an entry. -/
def PageTable.level3 (t : PageTable) (va : Nat) : Option Level3 := (t.entry (PIDX 1 va)).bind fun l2 => l2.entry (PIDX 2 va)

/-- The pages that the entries for `left` pages from page `a` on have. -/
def PageTable.frames (t : PageTable) (a left : Nat) : List PageNo :=
  (List.range' a left).filterMap fun n => (t.pte (n * PAGESIZE)).map Pte.page

/-- RAM is a range of pages. -/
theorem InRam.mem {page : Nat} (ram : InRam page) : page ∈ List.range' (2 ^ 18) (2 ^ 16) := by
  have inside : 0x40000000 ≤ page * 4096 ∧ page * 4096 < 0x50000000 := ram
  rw [List.mem_range'_1]
  omega

theorem InRam.small {page : Nat} (ram : InRam page) : page < 2 ^ 36 := by
  have low := (List.mem_range'_1.1 ram.mem).2
  exact Nat.lt_of_lt_of_le low (by decide)

/-- There are no more different pages of RAM than it has. -/
theorem length_le_ram {pages : List PageNo} (nodup : pages.Nodup) (ram : ∀ page ∈ pages, InRam page) : pages.length ≤ 2 ^ 16 := by
  have inside : pages ⊆ List.range' (2 ^ 18) (2 ^ 16) := fun page mem => (ram page mem).mem
  have count := (nodup.subperm inside).length_le
  rwa [List.length_range'] at count

section Names
variable {t t' : PageTable} {va : Nat} {s : Kallocator} {leaf : Pte → Multiset PageNo} {x : Option Pte}

theorem PageTable.pte_level3 (t : PageTable) (va : Nat) : t.pte va = (t.level3 va).bind fun l3 => l3.entry (PIDX 3 va) := by
  unfold PageTable.level3
  rw [Option.bind_assoc]
  rfl

/-- The pages with the old and the new entry. -/
theorem PageTable.pageNames_setPte (leaf : Pte → Multiset PageNo) (x : Option Pte) (ready : t.missing va = 0) :
    (t.setPte va x).pageNames leaf + (t.pte va).elim 0 leaf = t.pageNames leaf + x.elim 0 leaf := by
  obtain ⟨l2, l3, first, second⟩ := t.tables ready
  have moved3 := Table.names_put leaf l3 (PIDX 3 va) x
  have moved2 := Table.names_put (Table.names leaf) l2 (PIDX 2 va) (some (l3.put (PIDX 3 va) x))
  have moved1 := Table.names_put (Table.names (Table.names leaf)) t (PIDX 1 va) (some (l2.put (PIDX 2 va) (some (l3.put (PIDX 3 va) x))))
  simp only [first, second, Option.elim_some] at moved2 moved1
  simp only [PageTable.pageNames, PageTable.setPte, PageTable.pte, first, second, Option.map_some, Option.bind_some]
  rw [add_comm] at moved3
  rw [add_comm _ (Option.elim x 0 leaf)] at moved3
  have second' := Table.exchange moved3 moved2
  have first' := Table.exchange second' moved1
  rw [add_comm, first', add_comm]

/-- A third-level entry is no table. -/
theorem PageTable.tablePages_setPte (ready : t.missing va = 0) : (t.setPte va x).tablePages = t.tablePages := by
  have moved := PageTable.pageNames_setPte (fun _ => 0) x ready
  have none : ∀ y : Option Pte, y.elim (0 : Multiset PageNo) (fun _ => 0) = 0 := by
    intro y
    cases y with
    | none => rfl
    | some y => rfl
  rwa [none, none, add_zero, add_zero] at moved

/-- A page that is taken comes off the free list. -/
theorem kalloc_pool (s : Kallocator) : After kalloc s fun page u => u.pool + page.elim 0 (fun page => {page}) = s.pool := by
  refine (kalloc_after s).mono ?_
  rintro _ u (⟨rfl, -, same⟩ | ⟨new, rfl, list, -⟩)
  · rw [Option.elim_none, add_zero, Kallocator.pool, same]
    rfl
  · rw [Option.elim_some, Kallocator.pool, Kallocator.pool, list, add_comm]
    rfl

/-- The table behind an entry, with its pages. -/
theorem nextTable_pool {α : Type} (sub : α → Multiset PageNo) (t : Table (Fin 512) PageNo (Table (Fin 512) PageNo α)) (i : Fin 512)
    (s : Kallocator) : After (nextTable t i) s fun next u =>
      u.pool + (next.or (t.entry i)).elim 0 (Table.names sub) = s.pool + (t.entry i).elim 0 (Table.names sub) := by
  unfold nextTable
  split
  · rename_i l entry
    apply After.pure
    rw [entry]
    rfl
  · rename_i entry
    refine (kalloc_pool s).bind ?_
    intro page u taken
    apply After.pure
    rw [entry, ← taken]
    cases page with
    | none => simp
    | some page => simp

/-- There is none only where there was none. -/
theorem nextTable_none {α : Type} (t : Table (Fin 512) PageNo (Table (Fin 512) PageNo α)) (i : Fin 512) (s : Kallocator) :
    After (nextTable t i) s fun next _ => next = none → t.entry i = none := by
  unfold nextTable
  split
  · apply After.pure
    intro never
    cases never
  · rename_i entry
    exact After.behind fun _ _ => After.pure fun _ => entry

/-- Walking adds the tables that it takes. -/
theorem pagewalk_pool (leaf : Pte → Multiset PageNo) (t : PageTable) (va : Nat) (s : Kallocator) :
    After (pagewalk t va) s fun r u => u.pool + r.2.pageNames leaf = s.pool + t.pageNames leaf := by
  unfold pagewalk
  refine ((nextTable_pool (Table.names leaf) t (PIDX 1 va) s).and (nextTable_none t (PIDX 1 va) s)).bind ?_
  rintro (_ | l2) u ⟨first, fails⟩
  · apply After.pure
    rw [fails rfl, Option.or_none, Option.elim_none, add_zero, add_zero] at first
    rw [first]
  have moved := Table.names_put (Table.names (Table.names leaf)) t (PIDX 1 va) (some l2)
  refine ((nextTable_pool leaf l2 (PIDX 2 va) u).and (nextTable_none l2 (PIDX 2 va) u)).bind ?_
  rintro (_ | l3) v ⟨second, fails'⟩
  · apply After.pure
    rw [fails' rfl, Option.or_none, Option.elim_none, add_zero, add_zero] at second
    rw [Option.some_or, Option.elim_some, ← second] at first
    rw [Option.elim_some] at moved
    exact Table.exchange first moved
  · apply After.pure
    have moved2 := Table.names_put (Table.names leaf) l2 (PIDX 2 va) (some l3)
    have moved1 := Table.names_put (Table.names (Table.names leaf)) t (PIDX 1 va) (some (l2.put (PIDX 2 va) (some l3)))
    rw [Option.some_or, Option.elim_some] at first second
    rw [Option.elim_some] at moved2 moved1
    exact Table.exchange ((Table.exchange second moved2).trans first) moved1

theorem pagewalkDeref_pool (leaf : Pte → Multiset PageNo) (t : PageTable) (va : Nat) (s : Kallocator) :
    After (pagewalkDeref t va) s fun t' u => u.pool + t'.pageNames leaf = s.pool + t.pageNames leaf := by
  unfold pagewalkDeref
  refine (pagewalk_pool leaf t va s).bind ?_
  rintro ⟨found, t'⟩ u same
  cases found with
  | false => exact After.throw _
  | true => exact After.pure same

/-- The loop of `pagemap` takes tables only. -/
theorem mapPages_pool (attr : BitVec 64) (left : Nat) : ∀ (t : PageTable) (va pa : Nat) (s : Kallocator),
    After (mapPages attr left t va pa) s fun t' u => u.pool + t'.tablePages = s.pool + t.tablePages := by
  induction left with
  | zero => exact fun _ _ _ _ => After.pure rfl
  | succ left ih =>
    intro t va pa s
    unfold mapPages
    refine ((pagewalkDeref_pool (fun _ => 0) t va s).and (pagewalkDeref_ends t va s).1).bind ?_
    rintro t' u ⟨same, walked⟩
    split
    · exact After.throw _
    · refine (ih _ _ _ u).mono ?_
      intro t'' v later
      rw [later, PageTable.tablePages_setPte walked.ready]
      exact same

/-- `pagemap` of one page puts it into the table. -/
theorem pagemap_pool (t : PageTable) (va : Nat) (page : PageNo) (attr : BitVec 64) (s : Kallocator) :
    After (pagemap t va (page * PAGESIZE) PAGESIZE attr) s fun t' u => u.pool + t'.owned = s.pool + t.owned + {page % 2 ^ 36} := by
  unfold pagemap
  split
  · exact After.throw _
  · rw [Nat.div_self (by decide)]
    unfold mapPages
    refine ((pagewalkDeref_pool (fun pte => {pte.page}) t va s).and (pagewalkDeref_ends t va s).1).bind ?_
    rintro t' u ⟨same, walked⟩
    split
    · exact After.throw _
    · rename_i clear
      apply After.pure
      have moved := PageTable.pageNames_setPte (fun pte => {pte.page}) (some { page := page * PAGESIZE / PAGESIZE % 2 ^ 36, attr })
        walked.ready
      rw [Option.not_isSome_iff_eq_none] at clear
      rw [clear, Option.elim_none, add_zero, Option.elim_some] at moved
      rw [PageTable.owned, moved, ← add_assoc, same, Nat.mul_div_cancel _ (by decide)]
      rfl

/-- Where the lock is free `kalloc` returns, -/
theorem kalloc_returns (free : s.held = false) : Returns kalloc s fun _ _ => True := by
  unfold kalloc
  apply Returns.step (acquireKallocator_free free)
  apply Returns.step (get_runs s)
  cases s.freelist with
  | nil => exact ⟨none, _, rfl, trivial⟩
  | cons new next => exact ⟨some new, _, rfl, trivial⟩

theorem nextTable_returns {α : Type} (t : Table (Fin 512) PageNo (Table (Fin 512) PageNo α)) (i : Fin 512) (free : s.held = false) :
    Returns (nextTable t i) s fun _ _ => True := by
  unfold nextTable
  split
  · exact Returns.pure trivial
  · exact (kalloc_returns free).bind fun _ _ _ => Returns.pure trivial

/-- and so does a walk. -/
theorem pagewalk_returns (t : PageTable) (va : Nat) (free : s.held = false) : Returns (pagewalk t va) s fun _ _ => True := by
  unfold pagewalk
  apply ((nextTable_returns t (PIDX 1 va) free).and_after (nextTable_lock t (PIDX 1 va) free)).bind
  rintro l2 u ⟨-, lock⟩
  cases l2 with
  | none => exact Returns.pure trivial
  | some l2 =>
    apply (nextTable_returns l2 (PIDX 2 va) lock).bind
    intro l3 v _
    cases l3 with
    | none => exact Returns.pure trivial
    | some l3 => exact Returns.pure trivial

/-- Its entry can be used where there are pages for the tables that are missing. -/
theorem pagewalkDeref_returns (t : PageTable) (va : Nat) (free : s.held = false) (enough : t.missing va ≤ s.free) :
    Returns (pagewalkDeref t va) s fun t' u => Walked t va s true t' u := by
  unfold pagewalkDeref
  apply ((pagewalk_returns t va free).and_after (pagewalk_ends t va s).1).bind
  rintro ⟨found, t'⟩ u ⟨-, walked⟩
  obtain rfl : found = true := walked.finds.2 enough
  exact Returns.pure walked

/-- It fails only where there are none. -/
theorem pagewalkDeref_fails {t : PageTable} {va : Nat} {e : Fault} (free : s.held = false) (fails : pagewalkDeref t va s = .error e) :
    e = .undefined ∧ s.free < t.missing va := by
  obtain ⟨⟨found, t'⟩, u, run, -⟩ := pagewalk_returns t va free
  have walked := (pagewalk_ends t va s).1 _ _ run
  rw [pagewalkDeref, bind_runs run] at fails
  cases found with
  | false =>
    cases fails
    refine ⟨rfl, ?_⟩
    have := mt walked.finds.2 Bool.false_ne_true
    omega
  | true => cases fails

/-- `pagemap` of a page that is not mapped returns where there are pages for the tables. -/
theorem pagemap_returns {n : Nat} {page : PageNo} {attr : BitVec 64} (free : s.held = false) (new : t.pte (n * PAGESIZE) = none)
    (enough : t.missing (n * PAGESIZE) ≤ s.free) : Returns (pagemap t (n * PAGESIZE) (page * PAGESIZE) PAGESIZE attr) s fun _ _ => True := by
  unfold pagemap
  rw [if_neg (by simp), Nat.div_self (by decide)]
  unfold mapPages
  apply (pagewalkDeref_returns t _ free enough).bind
  intro t' u walked
  rw [walked.pte, new, if_neg (by decide)]
  exact Returns.pure trivial

/-- A walk to an entry whose tables are there changes nothing. -/
theorem pagewalk_ready (ready : t.missing va = 0) : pagewalk t va s = .ok ((true, t), s) := by
  obtain ⟨l2, l3, first, second⟩ := t.tables ready
  unfold pagewalk nextTable
  rw [first]
  dsimp only
  rw [bind_runs rfl]
  dsimp only
  rw [second, bind_runs rfl]
  dsimp only
  rw [← second, Table.put_entry, ← first, Table.put_entry]
  rfl

theorem pagewalkDeref_ready (ready : t.missing va = 0) : pagewalkDeref t va s = .ok (t, s) := by
  unfold pagewalkDeref
  rw [bind_runs (pagewalk_ready ready)]
  rfl

end Names

section Free
variable {t : PageTable} {s : Kallocator}

theorem PageTable.frames_succ {a left : Nat} {pte : Pte} (there : t.pte (a * PAGESIZE) = some pte) :
    t.frames a (left + 1) = pte.page :: t.frames (a + 1) left := by
  unfold PageTable.frames
  rw [List.range'_succ, List.filterMap_cons_some]
  rw [there]
  rfl

/-- Entries elsewhere do not matter. -/
theorem PageTable.frames_congr {t' : PageTable} {a left : Nat} (same : ∀ n, a ≤ n → n < a + left → t'.pte (n * PAGESIZE) = t.pte (n * PAGESIZE)) :
    t'.frames a left = t.frames a left := by
  unfold PageTable.frames
  apply List.filterMap_congr
  intro n mem
  obtain ⟨ge, lt⟩ := List.mem_range'_1.1 mem
  rw [same n ge lt]

theorem PageTable.frames_none {a left : Nat} (clear : t.pte (a * PAGESIZE) = none) : t.frames a (left + 1) = t.frames (a + 1) left := by
  unfold PageTable.frames
  rw [List.range'_succ, List.filterMap_cons_none]
  rw [clear]
  rfl

theorem PageTable.frames_append (t : PageTable) (a m n : Nat) : t.frames a (m + n) = t.frames a m ++ t.frames (a + m) n := by
  unfold PageTable.frames
  rw [← List.filterMap_append, List.range'_append_1]

theorem PageTable.frames_nil {a left : Nat} (clear : ∀ n, a ≤ n → n < a + left → t.pte (n * PAGESIZE) = none) : t.frames a left = [] := by
  unfold PageTable.frames
  rw [List.filterMap_eq_nil_iff]
  intro n mem
  obtain ⟨ge, lt⟩ := List.mem_range'_1.1 mem
  rw [clear n ge lt]
  rfl

theorem PageTable.frames_length {a left : Nat} (there : ∀ n, a ≤ n → n < a + left → (t.pte (n * PAGESIZE)).isSome) :
    (t.frames a left).length = left := by
  unfold PageTable.frames
  rw [List.filterMap_length_eq_length.2, List.length_range']
  intro n mem
  obtain ⟨ge, lt⟩ := List.mem_range'_1.1 mem
  rw [Option.isSome_map]
  exact there n ge lt

/-- A table that maps nothing has its tables only. -/
theorem PageTable.Maps.owned_empty (maps : t.Maps fun _ => False) : t.owned = t.tablePages := by
  refine Table.names_congr fun i l2 first => Table.names_congr fun j l3 second => Table.names_congr ?_
  intro k x entry
  rw [maps.no_entry first second] at entry
  cases entry

/-- One that maps pages of a range has the frames of these besides. -/
theorem PageTable.owned_frames (left : Nat) : ∀ {t : PageTable} {a : Nat}, a + left ≤ 2 ^ 27 →
    (∀ n < 2 ^ 27, (t.pte (n * PAGESIZE)).isSome → a ≤ n ∧ n < a + left) → t.owned = t.tablePages + ↑(t.frames a left) := by
  induction left with
  | zero =>
    intro t a low inside
    have nothing : t.Maps fun _ => False := by
      intro n lt
      refine iff_of_false ?_ id
      intro there
      have := inside n lt there
      omega
    rw [nothing.owned_empty]
    simp [PageTable.frames]
  | succ left ih =>
    intro t a low inside
    cases entry : t.pte (a * PAGESIZE) with
    | none =>
      rw [PageTable.frames_none entry]
      apply ih (by omega)
      intro n lt there
      obtain ⟨ge, lt'⟩ := inside n lt there
      have ne : n ≠ a := by
        rintro rfl
        rw [entry] at there
        cases there
      omega
    | some pte =>
      have ready := t.missing_of_pte entry
      have others : ∀ n < 2 ^ 27, n ≠ a → (t.setPte (a * PAGESIZE) none).pte (n * PAGESIZE) = t.pte (n * PAGESIZE) := by
        intro n lt ne
        apply PageTable.pte_setPte_ne
        rw [Nat.mul_div_cancel _ (by decide), Nat.mul_div_cancel _ (by decide), Nat.mod_eq_of_lt lt, Nat.mod_eq_of_lt (by omega)]
        exact ne
      have moved := PageTable.pageNames_setPte (fun pte => {pte.page}) none ready
      rw [entry, Option.elim_some, Option.elim_none, add_zero] at moved
      have rest : (t.setPte (a * PAGESIZE) none).owned = (t.setPte (a * PAGESIZE) none).tablePages +
          ↑((t.setPte (a * PAGESIZE) none).frames (a + 1) left) := by
        apply ih (by omega)
        intro n lt there
        rcases eq_or_ne n a with rfl | ne
        · rw [PageTable.pte_setPte ready rfl] at there
          cases there
        · rw [others n lt ne] at there
          have := inside n lt there
          omega
      rw [PageTable.tablePages_setPte ready, PageTable.frames_congr fun n ge lt => others n (by omega) (by omega)] at rest
      rw [PageTable.frames_succ entry, ← Multiset.cons_coe, Multiset.add_cons, ← rest, ← Multiset.singleton_add, add_comm]
      exact moved.symm

/-- Some of the pages that are mapped. -/
theorem PageTable.frames_le_owned (t : PageTable) {a left : Nat} (low : a + left ≤ 2 ^ 27) :
    t.tablePages + ↑(t.frames a left) ≤ t.owned := by
  rw [PageTable.owned_frames (2 ^ 27) (t := t) (a := 0) (by decide) fun n lt _ => ⟨Nat.zero_le n, by omega⟩]
  apply add_le_add_right
  obtain ⟨rest, split⟩ := Nat.exists_eq_add_of_le low
  have part : t.frames 0 (2 ^ 27) = t.frames 0 a ++ (t.frames a left ++ t.frames (a + left) rest) := by
    rw [split, Nat.add_assoc, PageTable.frames_append, PageTable.frames_append, Nat.zero_add]
  rw [part]
  exact Multiset.coe_le.2 ((List.sublist_append_left _ _).trans (List.sublist_append_right _ _)).subperm

theorem PageTable.tables_le_owned (t : PageTable) : t.tablePages ≤ t.owned := by
  have le : t.tablePages + ↑(t.frames 0 0) ≤ t.owned := t.frames_le_owned (by decide)
  exact (Multiset.le_add_right ..).trans le

/-- The pages without a mapped one. -/
theorem PageTable.owned_unmap {va : Nat} {pte : Pte} (entry : t.pte va = some pte) :
    t.owned = pte.page ::ₘ (t.setPte va none).owned := by
  have moved := PageTable.pageNames_setPte (fun pte => {pte.page}) none (t.missing_of_pte entry)
  rw [entry, Option.elim_some, Option.elim_none, add_zero] at moved
  rw [← Multiset.singleton_add, add_comm]
  exact moved.symm

theorem PageTable.leaf_mem {va : Nat} {pte : Pte} (entry : t.pte va = some pte) : pte.page ∈ t.owned := by
  rw [PageTable.owned_unmap entry]
  exact Multiset.mem_cons_self ..

/-- Where no page occurs twice a mapped page is no table, -/
theorem PageTable.leaf_not_table {va : Nat} {pte : Pte} (nodup : t.owned.Nodup) (entry : t.pte va = some pte) : pte.page ∉ t.tablePages := by
  rw [PageTable.owned_unmap entry, Multiset.nodup_cons] at nodup
  rw [← PageTable.tablePages_setPte (x := none) (t.missing_of_pte entry)]
  exact fun mem => nodup.1 (Multiset.mem_of_le (PageTable.tables_le_owned _) mem)

/-- and it is mapped once. -/
theorem PageTable.leaf_inj {n m : Nat} {pte pte' : Pte} (nodup : t.owned.Nodup) (lt : n < 2 ^ 27) (lt' : m < 2 ^ 27)
    (entry : t.pte (n * PAGESIZE) = some pte) (entry' : t.pte (m * PAGESIZE) = some pte') (same : pte.page = pte'.page) : n = m := by
  by_contra ne
  rw [PageTable.owned_unmap entry, Multiset.nodup_cons] at nodup
  apply nodup.1
  rw [same]
  have there : (t.setPte (n * PAGESIZE) none).pte (m * PAGESIZE) = some pte' := by
    rw [PageTable.pte_setPte_ne, entry']
    rw [Nat.mul_div_cancel _ (by decide), Nat.mul_div_cancel _ (by decide), Nat.mod_eq_of_lt lt, Nat.mod_eq_of_lt lt']
    exact Ne.symm ne
  exact PageTable.leaf_mem there

/-- **The pages of a process**: those of the tables, of the image and of the stack. -/
theorem PageTable.Maps.owned_image {r : Nat} (image : t.Maps (Image r)) (low : 1 + r ≤ STACKPAGE) :
    t.owned = t.tablePages + ↑(t.frames 1 r ++ t.frames STACKPAGE 1) := by
  have stack : STACKPAGE + 2 = 2 ^ 27 := by decide
  have clear : ∀ n < 2 ^ 27, ¬ Image r n → t.pte (n * PAGESIZE) = none :=
    fun n lt other => Option.not_isSome_iff_eq_none.1 (mt (image n lt).1 other)
  have whole : t.frames 0 (2 ^ 27) = t.frames 1 r ++ t.frames STACKPAGE 1 := by
    obtain ⟨gap, same⟩ := Nat.exists_eq_add_of_le low
    have split : 2 ^ 27 = 1 + (r + (gap + (1 + 1))) := by omega
    have zero : t.frames 0 1 = [] := PageTable.frames_nil fun n ge lt => clear n (by omega) (by unfold Image; omega)
    have between : t.frames (0 + 1 + r) gap = [] := PageTable.frames_nil fun n ge lt => clear n (by omega) (by unfold Image; omega)
    have top : t.frames (0 + 1 + r + gap + 1) 1 = [] := PageTable.frames_nil fun n ge lt => clear n (by omega) (by unfold Image; omega)
    rw [split, PageTable.frames_append, PageTable.frames_append, PageTable.frames_append, PageTable.frames_append, zero, between, top, same]
    simp
  rw [← whole]
  exact PageTable.owned_frames (2 ^ 27) (by decide) fun n lt _ => ⟨Nat.zero_le n, by omega⟩

/-- **The loop of `pageunmap`.** Over pages that are mapped it returns, with their frames freed one by
one, and their entries cleared. -/
theorem unmapPages_returns (left : Nat) : ∀ {t : PageTable} {a : Nat} {s : Kallocator}, s.held = false → a + left ≤ 2 ^ 27 →
    (∀ n, a ≤ n → n < a + left → (t.pte (n * PAGESIZE)).isSome) →
    Returns (unmapPages left t (a * PAGESIZE)) s fun t' u => u = { s with freelist := (t.frames a left).reverse ++ s.freelist } ∧
      t'.tablePages = t.tablePages ∧ ∀ n < 2 ^ 27, t'.pte (n * PAGESIZE) = if a ≤ n ∧ n < a + left then none else t.pte (n * PAGESIZE) := by
  induction left with
  | zero =>
    intro t a s free low there
    apply Returns.pure
    refine ⟨rfl, rfl, ?_⟩
    intro n lt
    rw [if_neg (by omega)]
  | succ left ih =>
    intro t a s free low there
    obtain ⟨pte, entry⟩ := Option.isSome_iff_exists.1 (there a le_rfl (by omega))
    have ready := t.missing_of_pte entry
    have others : ∀ n < 2 ^ 27, n ≠ a → (t.setPte (a * PAGESIZE) none).pte (n * PAGESIZE) = t.pte (n * PAGESIZE) := by
      intro n lt ne
      apply PageTable.pte_setPte_ne
      rw [Nat.mul_div_cancel _ (by decide), Nat.mul_div_cancel _ (by decide), Nat.mod_eq_of_lt lt, Nat.mod_eq_of_lt (by omega)]
      exact ne
    unfold unmapPages
    apply Returns.step (pagewalkDeref_ready ready)
    rw [entry]
    apply Returns.step (kfree_free free)
    rw [next_page (by omega)]
    apply (ih (a := a + 1) (s := { s with freelist := pte.page :: s.freelist }) free (by omega) ?_).mono
    · rintro t' u ⟨rfl, tables, ptes⟩
      refine ⟨?_, tables.trans (PageTable.tablePages_setPte ready), ?_⟩
      · rw [PageTable.frames_congr fun n ge lt => others n (by omega) (by omega), PageTable.frames_succ entry, List.reverse_cons,
          List.append_assoc]
        rfl
      · intro n lt
        rw [ptes n lt]
        rcases eq_or_ne n a with rfl | ne
        · rw [if_neg (by omega), if_pos (by omega), PageTable.pte_setPte ready rfl]
        · rw [others n lt ne]
          have same : (a + 1 ≤ n ∧ n < a + 1 + left) ↔ (a ≤ n ∧ n < a + (left + 1)) := by omega
          simp only [same]
    · intro n ge lt
      rw [others n (by omega) (by omega)]
      exact there n (by omega) (by omega)

/-- `pageunmap` of pages that are mapped. -/
theorem pageunmap_returns {a count : Nat} (free : s.held = false) (low : a + count ≤ 2 ^ 27)
    (there : ∀ n, a ≤ n → n < a + count → (t.pte (n * PAGESIZE)).isSome) :
    Returns (pageunmap t (a * PAGESIZE) (count * PAGESIZE)) s fun t' u => u = { s with freelist := (t.frames a count).reverse ++ s.freelist } ∧
      t'.tablePages = t.tablePages ∧ ∀ n < 2 ^ 27, t'.pte (n * PAGESIZE) = if a ≤ n ∧ n < a + count then none else t.pte (n * PAGESIZE) := by
  unfold pageunmap
  rw [if_neg (by simp), Nat.mul_div_cancel _ (by decide)]
  exact unmapPages_returns count free low there

/-- `free_table` of a level: what is behind its entries is freed, and then its own page. -/
theorem freeTable_returns {α : Type} {sub : α → MmM Unit} {names : α → Multiset PageNo} {t : Table (Fin 512) PageNo α}
    (frees : ∀ i x s, t.entry i = some x → s.held = false → Returns (sub x) s fun _ u => u.held = false ∧ u.pool = s.pool + names x)
    (free : s.held = false) : Returns (freeTable sub t) s fun _ u => u.held = false ∧ u.pool = s.pool + t.names names := by
  have each : ∀ (g : Fin 512 → MmM Unit),
      (∀ i s, s.held = false → Returns (g i) s fun _ u => u.held = false ∧ u.pool = s.pool + (t.entry i).elim 0 names) →
      ∀ (is : List (Fin 512)) (s : Kallocator), s.held = false →
        Returns (is.forM g) s fun _ u => u.held = false ∧ u.pool = s.pool + (is.map fun i => (t.entry i).elim 0 names).sum := by
    intro g one is
    induction is with
    | nil => exact fun s free => Returns.pure ⟨free, (add_zero _).symm⟩
    | cons i is ih =>
      intro s free
      rw [List.forM, List.map_cons, List.sum_cons]
      apply (one i s free).bind
      rintro _ u ⟨held, pool⟩
      apply (ih u held).mono
      rintro _ v ⟨held', pool'⟩
      refine ⟨held', ?_⟩
      rw [pool', pool, add_assoc]
  unfold freeTable
  apply (each _ ?_ (List.finRange 512) s free).bind
  rotate_left
  · intro i s free
    cases entry : t.entry i with
    | none => exact Returns.pure ⟨free, (add_zero _).symm⟩
    | some x => exact frees i x s entry free
  rintro _ u ⟨held, pool⟩
  refine ⟨(), _, kfree_free held, held, ?_⟩
  rw [Table.names, Fin.sum_univ_def, add_left_comm, ← pool]
  rfl

/-- `free_table` returns all its tables. -/
theorem PageTable.free_returns (free : s.held = false) : Returns t.free s fun _ u => u.held = false ∧ u.pool = s.pool + t.tablePages := by
  unfold PageTable.free
  apply freeTable_returns _ free
  intro i l2 s first free
  apply freeTable_returns _ free
  intro j l3 s second free
  apply freeTable_returns _ free
  intro k x s third free
  exact Returns.pure ⟨free, (add_zero _).symm⟩

/-- `free_userspace` of a process that maps what its size says, and its stack: it returns, with these pages and
those of the tables free. -/
theorem freeUserspace_frames {size r : Nat} (whole : PAGEROUNDUP size = r * PAGESIZE) (there : ∀ n < r, (t.pte ((1 + n) * PAGESIZE)).isSome)
    (stack : (t.pte USTACKBOTTOM).isSome) (low : 1 + r ≤ STACKPAGE) (free : s.held = false) :
    Returns (freeUserspace t size) s fun _ u => u.held = false ∧ u.pool = s.pool + (t.tablePages + ↑(t.frames 1 r ++ t.frames STACKPAGE 1)) := by
  have top : STACKPAGE + 1 ≤ 2 ^ 27 := by decide
  have place : USTACKBOTTOM = STACKPAGE * PAGESIZE := by decide
  rw [place] at stack
  have image : ∀ n, 1 ≤ n → n < 1 + r → (t.pte (n * PAGESIZE)).isSome := by
    intro n ge lt
    have here := there (n - 1) (by omega)
    rwa [Nat.add_sub_cancel' ge] at here
  unfold freeUserspace
  rw [whole, show 0x1000 = 1 * PAGESIZE from rfl, place]
  apply (pageunmap_returns free (by omega) image).bind
  rintro t₁ _ ⟨rfl, tables, ptes⟩
  have kept : ∀ n, STACKPAGE ≤ n → n < STACKPAGE + 1 → t₁.pte (n * PAGESIZE) = t.pte (n * PAGESIZE) := by
    intro n ge lt
    rw [ptes n (by omega), if_neg (by omega)]
  have second := pageunmap_returns (t := t₁) (s := { s with freelist := (t.frames 1 r).reverse ++ s.freelist }) free top fun n ge lt => by
    rw [kept n ge lt, show n = STACKPAGE by omega]
    exact stack
  rw [Nat.one_mul] at second
  apply second.bind
  rintro t₂ v ⟨second, tables', -⟩
  have free' : v.held = false := by
    rw [second]
    exact free
  apply (PageTable.free_returns free').mono
  rintro _ u ⟨held, pool⟩
  refine ⟨held, ?_⟩
  have same : t₁.frames STACKPAGE 1 = t.frames STACKPAGE 1 := PageTable.frames_congr kept
  rw [pool, second, tables', tables, same]
  have back : ∀ (l l' : List PageNo) (s : Kallocator) (pages : Multiset PageNo),
      Kallocator.pool { s with freelist := l'.reverse ++ (l.reverse ++ s.freelist) } + pages = s.pool + (pages + ↑(l ++ l')) := by
    intro l l' s pages
    unfold Kallocator.pool
    rw [← Multiset.coe_add, ← Multiset.coe_add, ← Multiset.coe_add, Multiset.coe_reverse, Multiset.coe_reverse]
    ac_rfl
  exact back ..

/-- **`free_userspace`** returns, with all the pages of the process free. -/
theorem freeUserspace_returns {size : Nat} (image : t.Maps (Image (PAGEROUNDUP size / PAGESIZE)))
    (low : 1 + PAGEROUNDUP size / PAGESIZE ≤ STACKPAGE) (free : s.held = false) :
    Returns (freeUserspace t size) s fun _ u => u.held = false ∧ u.pool = s.pool + t.owned := by
  have top : STACKPAGE < 2 ^ 27 := by decide
  have place : USTACKBOTTOM = STACKPAGE * PAGESIZE := by decide
  rw [image.owned_image low]
  apply freeUserspace_frames (PAGEROUNDUP_pages size).symm ?_ ?_ low free
  · exact fun n lt => (image (1 + n) (by omega)).2 (.inl ⟨Nat.le_add_right 1 n, by omega⟩)
  · rw [place]
    exact (image STACKPAGE top).2 (.inr rfl)

end Free

end Aarch64Os.Kernel
