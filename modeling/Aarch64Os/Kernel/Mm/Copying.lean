import Aarch64Os.Kernel.Mm.Translation

/-!
# Copying a user space (`kernel/mm.c`)

`cp_userspace` reads the pages of one table and maps copies of them in another. Both tables, and the
pages they map, are apart from each other and from the free pages throughout: so no copy is changed
after it has been made, and no page of the one is seen by the other.
-/

namespace Aarch64Os.Kernel.Words
set_option autoImplicit false
open Base

/-- The page that a table maps at page `n`. -/
def Memory.page (word : Memory) (root : PageNo) (n : Nat) : Option PageNo :=
  (word.translate root (n * PAGESIZE)).map fun r => r.1 / PAGESIZE

theorem Owned.page {s : Ram} {t : PageTable} (h : Owned s t) (n : Nat) : s.word.page t.name n = (t.pte (n * PAGESIZE)).map Pte.page := by
  rw [Memory.page, h.holds.translate, Option.map_map]
  congr 1
  funext pte
  rw [Function.comp_apply, Nat.mul_mod_left, Nat.add_zero, Nat.mul_div_cancel _ (by decide)]

/-- What is in it. -/
def Memory.view (word : Memory) (root : PageNo) (n : Nat) : Option (Fin 512 → BitVec 64) := (word.page root n).map word

/-- A store by a process to its page `n`: whatever the page holds then. -/
structure Store where
  root : PageNo
  n : Nat
  words : Fin 512 → BitVec 64

/-- Memory after a store, -/
def Ram.store (s : Ram) (w : Store) : Ram :=
  match s.word.page w.root w.n with
  | some page => s.fill page w.words
  | none => s

/-- and after some, one by one. -/
def Ram.stores (s : Ram) (ws : List Store) : Ram := ws.foldl Ram.store s

/-- Memory holds the tables of two processes. Their pages are pages of RAM, all different, and none is free. -/
structure Twins (s : Ram) (old new : PageTable) : Prop where
  shows : (Level.first Clear.user).shown s.word old
  twin : (Level.first Clear.user).shown s.word new
  apart : (s.kmem.pool + (old.owned + new.owned)).Nodup
  ram : ∀ page ∈ s.kmem.pool + (old.owned + new.owned), InRam page

namespace Twins
variable {s s' : Ram} {old new : PageTable} {n : Nat} {pte pte' : Pte} {page : PageNo}

theorem symm (h : Twins s old new) : Twins s new old := by
  refine ⟨h.twin, h.shows, ?_, ?_⟩
  · rw [add_comm new.owned]
    exact h.apart
  · rw [add_comm new.owned]
    exact h.ram

/-- One of the two. -/
theorem owned (h : Twins s old new) : Owned s old := by
  have le : s.kmem.pool + old.owned ≤ s.kmem.pool + (old.owned + new.owned) := add_le_add_right (Multiset.le_add_right ..) _
  exact ⟨h.shows, Multiset.nodup_of_le le h.apart, fun page mem => h.ram page (Multiset.mem_of_le le mem)⟩

theorem holds (h : Twins s old new) : Holds s Clear.user old := h.owned.holds

theorem nodup (h : Twins s old new) : old.owned.Nodup := (Multiset.nodup_add.1 (Multiset.nodup_add.1 h.apart).2.1).1

theorem disjoint (h : Twins s old new) (mine : page ∈ old.owned) : page ∉ new.owned :=
  fun other => Multiset.disjoint_left.1 (Multiset.nodup_add.1 (Multiset.nodup_add.1 h.apart).2.1).2.2 mine other

theorem not_free (h : Twins s old new) (mine : page ∈ old.owned) : page ∉ s.kmem.freelist := h.owned.not_free mine

theorem free_le (h : Twins s old new) : s.kmem.free ≤ 2 ^ 16 := by
  apply length_le_ram
  · exact Multiset.coe_nodup.1 (Multiset.nodup_add.1 h.apart).1
  · exact fun page mem => h.ram page (Multiset.mem_add.2 (.inl (Multiset.mem_coe.2 mem)))

end Twins

/-- A page has been copied: the table `new` has become `new'`, which has a copy at page `n`. -/
structure CopiedPage (s : Ram) (old new : PageTable) (n : Nat) (pte : Pte) (s' : Ram) (new' : PageTable) (page : PageNo) (attr : BitVec 64) :
    Prop where
  twins : Twins s' old new'
  name : new'.name = new.name
  maps : ∀ m < 2 ^ 27, new'.pte (m * PAGESIZE) = if m = n then some { page, attr } else new.pte (m * PAGESIZE)
  copy : s'.word page = s.word pte.page
  frame : ∀ q, q ∉ new.tablePages → q ∉ s.kmem.freelist → s'.word q = s.word q

section Copy
variable {s : Ram} {old new : PageTable} {n : Nat} {pte : Pte} {attr : BitVec 64}

/-- A round of the loop. -/
theorem copyPage_after (h : Twins s old new) (bits : PTE_PA attr = 0#64) (lt : n < 2 ^ 27) (entry : old.pte (n * PAGESIZE) = some pte) :
    After (copyPage attr new.name old.name (n * PAGESIZE)) s fun copied s' =>
      copied = true → ∃ new' page, CopiedPage s old new n pte s' new' page attr := by
  have found := PageTable.pte_level3 old (n * PAGESIZE)
  rw [entry] at found
  obtain ⟨l3, there, -⟩ := Option.bind_eq_some_iff.1 found.symm
  have word := h.holds.pte there
  have fits := h.holds.fits entry
  rw [entry, Option.elim_some] at word
  unfold copyPage
  refine After.step (h.holds.walks there) (After.step (get_runs s) ?_)
  rw [word, fits.pageOf]
  refine (kalloc_words s).bind ?_
  rintro _ s₁ (⟨rfl, -⟩ | ⟨page, rfl, pool, list, -, words⟩)
  · exact After.pure nofun
  refine After.step (get_runs s₁) (After.step (setPage_runs ..) ?_)
  have free : page ∈ s.kmem.freelist := by
    rw [list]
    exact List.mem_cons_self
  have mine := PageTable.leaf_mem entry
  -- the new page is in no table, and is not the one that is copied
  have outside : page ∉ new.tablePages := fun mem => h.symm.not_free (Multiset.mem_of_le new.tables_le_owned mem) free
  have source : s₁.word pte.page = s.word pte.page := by
    rw [words, Function.update_of_ne]
    intro same
    rw [same] at mine
    exact h.not_free mine free
  have before : ∀ q, q ≠ page → (s₁.fill page (s₁.word pte.page)).word q = s.word q := by
    intro q ne
    rw [Ram.fill_ne _ _ ne, words, Function.update_of_ne ne]
  have held : Holds (s₁.fill page (s₁.word pte.page)) Clear.user new := by
    have twin := h.symm.holds
    constructor
    · apply (Level.first Clear.user).frame twin.shows
      intro q mem
      apply before
      rintro rfl
      exact outside mem
    · have apart := twin.apart
      rw [pool, Multiset.cons_add, Multiset.nodup_cons] at apart
      exact apart.2
    · intro q mem
      apply twin.low
      rw [list]
      exact List.mem_cons_of_mem page mem
  intro copied s₂ run _
  obtain ⟨_, _, run, last⟩ := run_bind.1 run
  cases last
  have inside := h.ram page (Multiset.mem_add.2 (.inl (Multiset.mem_coe.2 free)))
  obtain ⟨new', mapped⟩ := pagemap_new held bits lt inside.small _ _ run
  have becomes := mapped.becomes
  have total := mapped.pool
  rw [Ram.fill_kmem] at total
  have unused : page ∉ s₁.kmem.freelist := by
    have distinct := (Multiset.nodup_add.1 h.apart).1
    rw [Kallocator.pool, list] at distinct
    exact (List.nodup_cons.1 (Multiset.coe_nodup.1 distinct)).1
  have frame : ∀ q, q ∉ new.tablePages → q ∉ s.kmem.freelist → s₂.word q = s.word q := by
    intro q other used
    rw [list, List.mem_cons, not_or] at used
    rw [becomes.frame q other used.2, before q used.1]
  have same : s₂.kmem.pool + (old.owned + new'.owned) = s.kmem.pool + (old.owned + new.owned) := by
    calc s₂.kmem.pool + (old.owned + new'.owned) = s₂.kmem.pool + new'.owned + old.owned := by ac_rfl
      _ = s₁.kmem.pool + new.owned + {page} + old.owned := by rw [total]
      _ = {page} + s₁.kmem.pool + (old.owned + new.owned) := by ac_rfl
      _ = s.kmem.pool + (old.owned + new.owned) := by rw [pool, Multiset.singleton_add]
  refine ⟨new', page, ⟨?_, becomes.holds.shows, ?_, ?_⟩, becomes.name, mapped.maps, ?_, frame⟩
  · apply (Level.first Clear.user).frame h.shows
    intro q mem
    have own : q ∈ old.owned := Multiset.mem_of_le old.tables_le_owned mem
    exact frame q (fun other => h.disjoint own (Multiset.mem_of_le new.tables_le_owned other)) (h.not_free own)
  · rw [same]
    exact h.apart
  · rw [same]
    exact h.ram
  · rw [becomes.frame page outside unused, Ram.fill_self, source]

end Copy

/-- Copies are under way: the pages `mapped` have been copied, and the old ones are as they were in `s₀`. -/
structure Copying (s₀ : Ram) (old : PageTable) (root : PageNo) (mapped : Nat → Prop) (s : Ram) (new : PageTable) : Prop where
  twins : Twins s old new
  name : new.name = root
  maps : new.Maps mapped
  copies : ∀ m < 2 ^ 27, ∀ pte ∈ old.pte (m * PAGESIZE), ∀ pte' ∈ new.pte (m * PAGESIZE), s.word pte'.page = s₀.word pte.page
  kept : ∀ q ∈ old.owned, s.word q = s₀.word q

section Loop
variable {s₀ s : Ram} {old new : PageTable} {root : PageNo} {mapped : Nat → Prop} {n : Nat} {attr : BitVec 64}

theorem Copying.start (h : Twins s₀ old new) (empty : new.Maps fun _ => False) : Copying s₀ old new.name (fun _ => False) s₀ new := by
  refine ⟨h, rfl, empty, ?_, fun _ _ => rfl⟩
  intro m lt pte _ pte' mem
  have there := (empty m lt).1
  rw [Option.mem_def.1 mem] at there
  exact (there rfl).elim

theorem Copying.congr {mapped' : Nat → Prop} (h : Copying s₀ old root mapped s new) (same : ∀ n < 2 ^ 27, mapped n ↔ mapped' n) :
    Copying s₀ old root mapped' s new :=
  ⟨h.twins, h.name, fun n lt => (h.maps n lt).trans (same n lt), h.copies, h.kept⟩

/-- One more page is copied. -/
theorem Copying.copyPage (h : Copying s₀ old root mapped s new) (bits : PTE_PA attr = 0#64) (lt : n < 2 ^ 27)
    (there : (old.pte (n * PAGESIZE)).isSome) : After (copyPage attr root old.name (n * PAGESIZE)) s fun copied s' =>
      copied = true → ∃ new', Copying s₀ old root (fun m => m = n ∨ mapped m) s' new' := by
  obtain ⟨pte, entry⟩ := Option.isSome_iff_exists.1 there
  have step := copyPage_after h.twins bits lt entry
  rw [h.name] at step
  refine step.mono ?_
  intro copied s' done ok
  obtain ⟨new', page, c⟩ := done ok
  have old_kept : ∀ q ∈ old.owned, s'.word q = s.word q := fun q mem =>
    c.frame q (fun other => h.twins.disjoint mem (Multiset.mem_of_le new.tables_le_owned other)) (h.twins.not_free mem)
  refine ⟨new', c.twins, c.name.trans h.name, ?_, ?_, ?_⟩
  · intro m lt
    rw [c.maps m lt]
    split
    · rename_i here
      exact iff_of_true rfl (.inl here)
    · rename_i other
      rw [h.maps m lt]
      exact ⟨.inr, fun either => either.resolve_left other⟩
  · intro m lt p mem p' mem'
    rw [c.maps m lt] at mem'
    split at mem'
    · rename_i here
      cases mem'
      rw [here, Option.mem_def, entry] at mem
      cases mem
      rw [c.copy]
      exact h.kept _ (PageTable.leaf_mem entry)
    · rw [c.frame p'.page (PageTable.leaf_not_table h.twins.symm.nodup mem') (h.twins.symm.not_free (PageTable.leaf_mem mem'))]
      exact h.copies m lt p mem p' mem'
  · intro q mem
    rw [old_kept q mem, h.kept q mem]

/-- The loop has its end behind the last page that `size` reaches. -/
theorem copyPages_rounds (size left : Nat) : ∀ {s : Ram} {b va : Nat}, b + left < 2 ^ 51 →
    After (copyPages size left root old.name va (b * PAGESIZE)) s fun done _ => done = true → size ≤ (b + left) * PAGESIZE := by
  induction left with
  | zero => exact fun _ => After.throw _
  | succ left ih =>
    intro s b va low
    unfold copyPages
    split
    · refine After.behind fun copied s' => ?_
      cases copied with
      | false => exact After.pure nofun
      | true =>
        rw [if_neg (by decide), next_page (by omega)]
        refine (ih (b := b + 1) (by omega)).mono ?_
        intro done _ fits ok
        rw [show b + (left + 1) = b + 1 + left by omega]
        exact fits ok
    · rename_i ending
      apply After.pure
      intro _
      exact (not_lt.1 ending).trans (Nat.mul_le_mul_right _ (by omega))

/-- The loop of `cp_userspace`. -/
theorem copyPages_after {a : Nat} (size left : Nat) (low : ∀ k, k * PAGESIZE < size → a + k < 2 ^ 27 ∧ (old.pte ((a + k) * PAGESIZE)).isSome) :
    ∀ {s : Ram} {new : PageTable} {k : Nat}, k < 2 ^ 28 → Copying s₀ old root (fun n => a ≤ n ∧ n < a + k) s new →
      (∀ j < k, j * PAGESIZE < size) → After (copyPages size left root old.name ((a + k) * PAGESIZE) (k * PAGESIZE)) s fun done s' =>
        done = true → ∃ r new', size ≤ r * PAGESIZE ∧ (∀ j < r, j * PAGESIZE < size) ∧ r < 2 ^ 28 ∧
          Copying s₀ old root (fun n => a ≤ n ∧ n < a + r) s' new' := by
  induction left with
  | zero => exact fun _ _ _ => After.throw _
  | succ left ih =>
    intro s new k few h before
    unfold copyPages
    split
    · rename_i more
      obtain ⟨lt, there⟩ := low k more
      refine (h.copyPage (by decide) lt there).bind ?_
      intro copied s' done
      cases copied with
      | false => exact After.pure nofun
      | true =>
        obtain ⟨new', h'⟩ := done rfl
        rw [if_neg (by decide), next_page (by omega), next_page (by omega)]
        refine ih (k := k + 1) (by omega) (h'.congr ?_) ?_
        · intro n _
          constructor
          · rintro (rfl | ⟨ge, lt⟩)
            · omega
            · omega
          · rintro ⟨ge, lt⟩
            omega
        · intro j lt
          rcases Nat.lt_succ_iff_lt_or_eq.1 lt with lt | rfl
          · exact before j lt
          · exact more
    · rename_i ending
      exact After.pure fun _ => ⟨k, new, not_lt.1 ending, before, few, h⟩

end Loop

section Fuel
variable {s : Ram} {root oldpgt : PageNo}

/-- `kalloc` takes one page at most. -/
theorem kalloc_free (s : Ram) : Ends (· = .hang) kalloc s fun page s' => s'.kmem.free + (page.elim 0 fun _ => 1) = s.kmem.free := by
  constructor
  · rintro page s' run
    rcases kalloc_words s page s' run with ⟨rfl, -, same, -⟩ | ⟨new, rfl, -, list, -⟩
    · simp [Kallocator.free, same]
    · simp [Kallocator.free, list]
  · rintro e fails rfl
    have fails' := ((kalloc_lockstep s).1 .hang).1 fails
    cases held : s.kmem.held with
    | true =>
      rw [kalloc_held held] at fails'
      cases fails'
    | false => exact (kalloc_returns held).not_error _ fails'

theorem walkLevels_free (va : Nat) (levels : List Nat) : ∀ (pgt : PageNo) (s : Ram),
    Ends (· = .hang) (walkLevels va levels pgt) s fun _ s' => s'.kmem.free ≤ s.kmem.free := by
  induction levels with
  | nil => exact fun _ _ => Ends.pure le_rfl
  | cons level levels ih =>
    intro pgt s
    unfold walkLevels
    apply Ends.step (get_runs s)
    split
    · exact ih _ s
    · apply (kalloc_free s).bind
      intro new s₁ taken
      cases new with
      | none => exact Ends.pure (by simp only [Option.elim_none] at taken; omega)
      | some new =>
        apply Ends.step (setEntry_runs ..)
        apply (ih new _).mono
        intro _ s₂ less
        rw [Ram.set_kmem] at less
        simp only [Option.elim_some] at taken
        omega

theorem pagewalkDeref_free (pgt : PageNo) (va : Nat) (s : Ram) :
    Ends (· = .hang) (pagewalkDeref pgt va) s fun _ s' => s'.kmem.free ≤ s.kmem.free := by
  unfold pagewalkDeref
  apply (walkLevels_free va [1, 2] pgt s).bind
  intro l3 s' less
  cases l3 with
  | none => exact Ends.throw nofun
  | some l3 => exact Ends.pure less

theorem mapPages_free (attr : BitVec 64) (left : Nat) : ∀ (pgt : PageNo) (va pa : Nat) (s : Ram),
    Ends (· = .hang) (mapPages attr left pgt va pa) s fun _ s' => s'.kmem.free ≤ s.kmem.free := by
  induction left with
  | zero => exact fun _ _ _ _ => Ends.pure le_rfl
  | succ left ih =>
    intro pgt va pa s
    unfold mapPages
    apply (pagewalkDeref_free pgt va s).bind
    intro l3 s₁ less
    apply Ends.step (get_runs s₁)
    split
    · apply Ends.throw
      intro same
      cases same
    · apply Ends.step (setEntry_runs ..)
      apply (ih _ _ _ _).mono
      intro _ s₂ less'
      exact less'.trans less

theorem pagemap_free (pgt : PageNo) (va pa size : Nat) (attr : BitVec 64) (s : Ram) :
    Ends (· = .hang) (pagemap pgt va pa size attr) s fun _ s' => s'.kmem.free ≤ s.kmem.free := by
  unfold pagemap
  split
  · exact Ends.throw nofun
  · exact mapPages_free attr _ pgt va pa s

/-- A page that is copied takes one. -/
theorem copyPage_free (attr : BitVec 64) (va : Nat) (s : Ram) :
    Ends (· = .hang) (copyPage attr root oldpgt va) s fun copied s' => copied = true → s'.kmem.free < s.kmem.free := by
  unfold copyPage
  apply (pagewalkDeref_free oldpgt va s).bind
  intro l3 s₁ less
  apply Ends.step (get_runs s₁)
  apply (kalloc_free s₁).bind
  intro page s₂ taken
  cases page with
  | none => exact Ends.pure nofun
  | some page =>
    apply Ends.step (get_runs s₂)
    apply Ends.step (setPage_runs ..)
    simp only [Option.elim_some] at taken
    apply (pagemap_free root va _ _ attr _).bind
    intro _ s₃ less'
    rw [Ram.fill_kmem] at less'
    exact Ends.pure fun _ => by omega

/-- The loop of `cp_userspace` comes to an end: the rounds that it is given are enough. -/
theorem copyPages_ends (size left : Nat) : ∀ {s : Ram} {va p : Nat}, s.kmem.free < left →
    Ends (· = .hang) (copyPages size left root oldpgt va p) s fun _ _ => True := by
  induction left with
  | zero => exact fun few => absurd few (Nat.not_lt_zero _)
  | succ left ih =>
    intro s va p few
    unfold copyPages
    split
    · apply (copyPage_free _ va s).bind
      intro copied s' less
      cases copied with
      | false => exact Ends.pure trivial
      | true =>
        rw [if_neg (by decide)]
        exact ih (by have := less rfl; omega)
    · exact Ends.pure trivial

theorem cpUserspace_no_hang (va size : Nat) (s : Ram) : cpUserspace root oldpgt va size s ≠ .error .hang := by
  have ends : Ends (· = .hang) (cpUserspace root oldpgt va size) s fun _ _ => True := by
    unfold cpUserspace
    apply Ends.step (get_runs s)
    apply (copyPages_ends size (s.kmem.free + 1) (Nat.lt_succ_self _)).bind
    intro done s' _
    cases done with
    | false => exact Ends.pure trivial
    | true =>
      rw [Bool.not_true, if_neg (by decide)]
      exact (copyPage_free _ _ s').bind fun _ _ _ => Ends.pure trivial
  exact fun hangs => ends.2 _ hangs rfl

end Fuel

section Copied
variable {s s' : Ram} {old new : PageTable} {a size : Nat}

/-- **`cp_userspace`** has copied every page when it returns 0. -/
theorem cpUserspace_after (h : Twins s old new) (empty : new.Maps fun _ => False) (lt : size < U64) (low : a + PAGEROUNDUP size / PAGESIZE ≤ 2 ^ 27)
    (image : old.Maps fun n => a ≤ n ∧ n < a + PAGEROUNDUP size / PAGESIZE ∨ n = STACKPAGE) :
    After (cpUserspace new.name old.name (a * PAGESIZE) size) s fun code s' => code = 0 → ∃ new',
      Copying s old new.name (fun n => a ≤ n ∧ n < a + PAGEROUNDUP size / PAGESIZE ∨ n = STACKPAGE) s' new' := by
  have top : STACKPAGE < 2 ^ 27 := by decide
  have few := h.free_le
  unfold cpUserspace
  refine After.step (get_runs s) ?_
  by_cases wraps : U64 - PAGESIZE < size
  · -- no memory is large enough for the loop to end
    have rounds : After (copyPages size (s.kmem.free + 1) new.name old.name (a * PAGESIZE) (0 * PAGESIZE)) s fun done _ =>
        done = true → size ≤ (0 + (s.kmem.free + 1)) * PAGESIZE := copyPages_rounds size _ (by omega)
    rw [Nat.zero_mul] at rounds
    refine rounds.bind ?_
    intro done s' fits
    cases done with
    | false => exact After.pure fun code => absurd code (by decide)
    | true =>
      have := fits rfl
      simp only [U64, PAGESIZE] at *
      omega
  · have inside : ∀ k, k * PAGESIZE < size → k < PAGEROUNDUP size / PAGESIZE := by
      intro k more
      have exact : (size + 4095) % U64 = size + 4095 := Nat.mod_eq_of_lt (by simp only [U64, PAGESIZE] at *; omega)
      simp only [PAGEROUNDUP, PAGESIZE] at *
      rw [Nat.mul_div_cancel _ (by decide), show size + 4096 - 1 = size + 4095 by omega, exact]
      omega
    have pages : ∀ k, k * PAGESIZE < size → a + k < 2 ^ 27 ∧ (old.pte ((a + k) * PAGESIZE)).isSome := by
      intro k more
      have := inside k more
      exact ⟨by omega, (image _ (by omega)).2 (.inl ⟨by omega, by omega⟩)⟩
    have start : Copying s old new.name (fun n => a ≤ n ∧ n < a + 0) s new := (Copying.start h empty).congr fun n _ => iff_of_false id (by omega)
    have loop := copyPages_after size (s.kmem.free + 1) pages (by decide) start fun j lt => absurd lt j.not_lt_zero
    rw [Nat.add_zero, Nat.zero_mul] at loop
    refine loop.bind ?_
    intro done s₁ ended
    cases done with
    | false => exact After.pure fun code => absurd code (by decide)
    | true =>
      obtain ⟨r, new₁, ends, before, few, copying⟩ := ended rfl
      have pages : PAGEROUNDUP size / PAGESIZE = r := by
        rw [PAGEROUNDUP_eq (by omega) ends before, Nat.mul_div_cancel _ (by decide)]
      rw [Bool.not_true, if_neg (by decide), show USTACKBOTTOM = STACKPAGE * PAGESIZE by decide]
      refine (copying.copyPage (by decide) top ((image _ top).2 (.inr rfl))).bind ?_
      intro copied s₂ done
      cases copied with
      | false => exact After.pure fun code => absurd code (by decide)
      | true =>
        obtain ⟨new₂, copying⟩ := done rfl
        refine After.pure fun _ => ⟨new₂, copying.congr fun n _ => ?_⟩
        rw [pages]
        exact or_comm

/-- What `cp_userspace` is for: the new table has copies of what the old one maps, in pages of its own, and
the old one and its pages are as before. Stores of both, in any order, are each seen by their own process only. -/
structure Copied (s : Ram) (oldpgt newpgt : PageNo) (s' : Ram) : Prop where
  mappings : ∀ x, s'.word.translate oldpgt x = s.word.translate oldpgt x
  contents : ∀ n < 2 ^ 27, ∀ page ∈ s.word.page oldpgt n, s'.word page = s.word page
  same : ∀ n < 2 ^ 27, s'.word.view newpgt n = s.word.view oldpgt n
  apart : ∀ n < 2 ^ 27, ∀ m < 2 ^ 27, ∀ page ∈ s'.word.page newpgt n, page ∉ s.word.page oldpgt m
  distinct : ∀ n < 2 ^ 27, ∀ m < 2 ^ 27, ∀ page ∈ s'.word.page newpgt n, page ∈ s'.word.page newpgt m → n = m
  child : ∀ ws : List Store, (∀ w ∈ ws, w.root = newpgt ∨ w.root = oldpgt) → ∀ n < 2 ^ 27,
    (s'.stores ws).word.view newpgt n = (s'.stores (ws.filter (·.root = newpgt))).word.view newpgt n
  parent : ∀ ws : List Store, (∀ w ∈ ws, w.root = oldpgt ∨ w.root = newpgt) → ∀ n < 2 ^ 27,
    (s'.stores ws).word.view oldpgt n = (s'.stores (ws.filter (·.root = oldpgt))).word.view oldpgt n

theorem Twins.page (h : Twins s old new) (n : Nat) : s.word.page old.name n = (old.pte (n * PAGESIZE)).map Pte.page := h.owned.page n

theorem Twins.page_mem (h : Twins s old new) {n : Nat} {page : PageNo} (mem : page ∈ s.word.page old.name n) : page ∈ old.owned := by
  rw [h.page] at mem
  obtain ⟨pte, entry, rfl⟩ := Option.map_eq_some_iff.1 mem
  exact PageTable.leaf_mem entry

/-- A page that is mapped is filled. -/
theorem Twins.fill (h : Twins s old new) {va : Nat} {pte : Pte} (entry : old.pte va = some pte) (words : Fin 512 → BitVec 64) :
    Twins (s.fill pte.page words) old new := by
  refine ⟨?_, ?_, h.apart, h.ram⟩
  · apply (Level.first Clear.user).frame h.shows
    intro q mem
    apply Ram.fill_ne
    rintro rfl
    exact PageTable.leaf_not_table h.nodup entry mem
  · apply (Level.first Clear.user).frame h.twin
    intro q mem
    apply Ram.fill_ne
    rintro rfl
    exact h.disjoint (PageTable.leaf_mem entry) (Multiset.mem_of_le new.tables_le_owned mem)

theorem Twins.store (h : Twins s old new) {w : Store} (mine : w.root = old.name) :
    Twins (s.store w) old new ∧ ∀ q ∈ new.owned, (s.store w).word q = s.word q := by
  unfold Ram.store
  rw [mine, h.page]
  cases entry : old.pte (w.n * PAGESIZE) with
  | none => exact ⟨h, fun _ _ => rfl⟩
  | some pte =>
    refine ⟨h.fill entry w.words, ?_⟩
    intro q mem
    apply Ram.fill_ne
    rintro rfl
    exact h.disjoint (PageTable.leaf_mem entry) mem

theorem Twins.names (h : Twins s old new) : old.name ≠ new.name := by
  intro same
  have mem := Multiset.mem_of_le old.tables_le_owned (Table.name_mem _ old)
  rw [same] at mem
  exact h.symm.disjoint (Multiset.mem_of_le new.tables_le_owned (Table.name_mem _ new)) mem

/-- What a process sees depends on its own pages. -/
theorem Twins.view_congr {s₁ s₂ : Ram} (h : Twins s₁ old new) (h' : Twins s₂ old new) (same : ∀ q ∈ old.owned, s₁.word q = s₂.word q) (n : Nat) :
    s₁.word.view old.name n = s₂.word.view old.name n := by
  rw [Memory.view, Memory.view, h.page, h'.page]
  cases entry : old.pte (n * PAGESIZE) with
  | none => rfl
  | some pte => exact congrArg some (same _ (PageTable.leaf_mem entry))

/-- Of the stores of both a process only sees its own. -/
theorem Twins.stores (ws : List Store) : ∀ {s₁ s₂ : Ram}, Twins s₁ old new → Twins s₂ old new → (∀ q ∈ old.owned, s₁.word q = s₂.word q) →
    (∀ w ∈ ws, w.root = old.name ∨ w.root = new.name) → ∀ n,
    (s₁.stores ws).word.view old.name n = (s₂.stores (ws.filter (·.root = old.name))).word.view old.name n := by
  induction ws with
  | nil => exact fun h h' same _ n => h.view_congr h' same n
  | cons w ws ih =>
    intro s₁ s₂ h h' same who n
    have rest := fun w mem => who w (List.mem_cons_of_mem _ mem)
    rcases who w List.mem_cons_self with mine | other
    · rw [List.filter_cons_of_pos (by simpa using mine)]
      refine ih (h.store mine).1 (h'.store mine).1 ?_ rest n
      intro q mem
      unfold Ram.store
      rw [mine, h.page, h'.page]
      cases old.pte (w.n * PAGESIZE) with
      | none => exact same q mem
      | some pte =>
        rcases eq_or_ne q pte.page with rfl | ne
        · exact (Ram.fill_self ..).trans (Ram.fill_self ..).symm
        · exact (Ram.fill_ne _ _ ne).trans ((same q mem).trans (Ram.fill_ne _ _ ne).symm)
    · have ne : ¬ w.root = old.name := fun mine => h.names (mine.symm.trans other)
      rw [List.filter_cons_of_neg (by simpa using ne)]
      have stored := h.symm.store other
      refine ih stored.1.symm h' ?_ rest n
      intro q mem
      rw [stored.2 q mem, same q mem]

/-- **Copying a user space.** -/
theorem cpUserspace_copies (h : Twins s old new) (empty : new.Maps fun _ => False) (lt : size < U64) (low : a + PAGEROUNDUP size / PAGESIZE ≤ 2 ^ 27)
    (image : old.Maps fun n => a ≤ n ∧ n < a + PAGEROUNDUP size / PAGESIZE ∨ n = STACKPAGE)
    (run : cpUserspace new.name old.name (a * PAGESIZE) size s = .ok (0, s')) : Copied s old.name new.name s' := by
  obtain ⟨new', copying⟩ := cpUserspace_after h empty lt low image _ _ run rfl
  have twins := copying.twins
  have name := copying.name
  have pages : ∀ n, s'.word.page old.name n = s.word.page old.name n := fun n => by rw [twins.page, h.page]
  constructor
  · intro x
    rw [twins.holds.translate, h.holds.translate]
  · intro n _ page mem
    exact copying.kept page (h.page_mem mem)
  · intro n lt
    rw [Memory.view, Memory.view, ← name, twins.symm.page, h.page]
    have here := (copying.maps n lt).trans (image n lt).symm
    cases entry : old.pte (n * PAGESIZE) with
    | none =>
      rw [entry] at here
      rw [Option.not_isSome_iff_eq_none.1 (mt here.1 (by decide))]
      rfl
    | some pte =>
      rw [entry] at here
      obtain ⟨pte', entry'⟩ := Option.isSome_iff_exists.1 (here.2 rfl)
      rw [entry']
      exact congrArg some (copying.copies n lt pte entry pte' entry')
  · intro n _ m _ page mem mem'
    rw [← name] at mem
    exact twins.disjoint (h.page_mem mem') (twins.symm.page_mem mem)
  · intro n lt m lt' page mem mem'
    rw [← name, twins.symm.page] at mem mem'
    obtain ⟨pte, entry, rfl⟩ := Option.map_eq_some_iff.1 mem
    obtain ⟨pte', entry', same⟩ := Option.map_eq_some_iff.1 mem'
    exact PageTable.leaf_inj twins.symm.nodup lt lt' entry entry' same.symm
  · intro ws who n _
    rw [← name] at who ⊢
    exact Twins.stores ws twins.symm twins.symm (fun _ _ => rfl) who n
  · intro ws who n _
    rw [← name] at who
    exact Twins.stores ws twins twins (fun _ _ => rfl) who n

/-- A child of a process without an image. -/
theorem stack_twins : Twins stackRam stackTable (Table.empty 0x4000b) := by
  obtain ⟨becomes, -, -, pool⟩ := stack_becomes
  have other : 0x4000b ∉ PageTable.tablePages (Table.empty 0x40000) := by
    rw [PageTable.tablePages, PageTable.pageNames, Table.names_empty]
    decide
  have total : stackRam.kmem.pool + (stackTable.owned + PageTable.owned (Table.empty 0x4000b)) =
      ↑(List.range' 0x40001 8) + {0x40000} + {0x4000a} + {0x4000b} := by
    rw [← add_assoc, pool, PageTable.owned, PageTable.pageNames, Table.names_empty]
  refine ⟨becomes.holds.shows, (Level.first Clear.user).fresh ?_, ?_, ?_⟩
  · exact becomes.frame 0x4000b other (by decide)
  · rw [total]
    decide
  · rw [total]
    decide

theorem stack_copies : ∃ s', cpUserspace 0x4000b 0x40000 (1 * PAGESIZE) 0 stackRam = .ok (0, s') ∧ Copied stackRam 0x40000 0x4000b s' := by
  obtain ⟨becomes, image, -⟩ := stack_becomes
  have root : stackTable.name = 0x40000 := becomes.name
  have passes : (cpUserspace 0x4000b 0x40000 (1 * PAGESIZE) 0 stackRam).toOption.any (fun r => decide (r.1 = 0)) = true := by decide +kernel
  obtain ⟨code, s', run, zero⟩ := ok_of_any passes
  obtain rfl : code = 0 := of_decide_eq_true zero
  refine ⟨s', run, ?_⟩
  rw [← root] at run ⊢
  refine cpUserspace_copies stack_twins (fun n _ => iff_of_false Bool.false_ne_true id) (by decide) (by decide) ?_ run
  intro n lt
  rw [image n lt]
  unfold Image
  rw [show PAGEROUNDUP 0 / PAGESIZE = 0 by decide]

end Copied

end Aarch64Os.Kernel.Words
