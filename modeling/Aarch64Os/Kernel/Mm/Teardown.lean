import Aarch64Os.Kernel.Mm.RamTables

/-!
# Freeing a page table (`kernel/mm.c`)

`free_userspace` first frees the pages that are mapped, each with its entry, and then the tables, which
it tells by their bits. On a table that memory holds both do what they do on the tree, so every page
comes back once.
-/

namespace Aarch64Os.Kernel.Words
set_option autoImplicit false
open Base

section Unmap
variable {s s' : Ram} {clear : Clear} {t t' : PageTable} {a left : Nat}

/-- A page that is in no table is freed. -/
theorem Holds.freed (h : Holds s clear t) {page : PageNo} (other : page ∉ t.tablePages) (used : page ∉ s.kmem.freelist)
    (small : page < 2 ^ 36) (list : s'.kmem.freelist = page :: s.kmem.freelist) (same : ∀ other, other ≠ page → s'.word other = s.word other) :
    Holds s' clear t := by
  constructor
  · apply (Level.first clear).frame h.shows
    intro page' mem
    apply same
    rintro rfl
    exact other mem
  · rw [Kallocator.pool, list, ← Multiset.cons_coe, Multiset.cons_add, Multiset.nodup_cons]
    refine ⟨?_, h.apart⟩
    intro mem
    rcases Multiset.mem_add.1 mem with free | mine
    · exact used (Multiset.mem_coe.1 free)
    · exact other mine
  · rw [list]
    intro page' mem
    rcases List.mem_cons.1 mem with rfl | mem
    · exact small
    · exact h.low page' mem

/-- What unmapping `left` pages from page `a` on leaves: their entries are clear, and the pages are free. -/
structure Unmapped (s : Ram) (clear : Clear) (t : PageTable) (a left : Nat) (s' : Ram) (t' : PageTable) : Prop where
  holds : Holds s' clear t'
  name : t'.name = t.name
  pool : s'.kmem.pool + t'.tablePages = s.kmem.pool + (t.tablePages + ↑(t.frames a left))
  frame : ∀ page, page ∉ t.tablePages → page ∉ t.frames a left → s'.word page = s.word page
  pte : ∀ n < 2 ^ 27, t'.pte (n * PAGESIZE) = if a ≤ n ∧ n < a + left then none else t.pte (n * PAGESIZE)

/-- The loop of `pageunmap`, over pages that are neither in the table nor free, nor mapped twice. -/
theorem unmapPages_lockstep (left : Nat) : ∀ {s : Ram} {t : PageTable} {a : Nat}, a + left ≤ 2 ^ 27 → Holds s clear t →
    (s.kmem.pool + (t.tablePages + ↑(t.frames a left))).Nodup →
    Lockstep (unmapPages left t.name (a * PAGESIZE)) s (Kernel.unmapPages left t (a * PAGESIZE)) s.kmem fun _ s' t' k =>
      s'.kmem = k ∧ Unmapped s clear t a left s' t' := by
  induction left with
  | zero =>
    intro s t a low h apart
    refine Lockstep.pure ⟨rfl, h, rfl, ?_, fun _ _ _ => rfl, ?_⟩
    · simp [PageTable.frames]
    · intro n lt
      rw [if_neg (by omega)]
  | succ left ih =>
    intro s t a low h apart
    unfold unmapPages Kernel.unmapPages
    cases entry : t.pte (a * PAGESIZE) with
    | none =>
      -- there is nothing to unmap, and both stop
      apply ((pagewalkDeref_lockstep h _).after (pagewalkDeref_ends t _ s.kmem).1).bind
      rintro _ s₁ t₁ _ ⟨⟨rfl, walked, l3, there, rfl⟩, kept⟩
      apply Lockstep.machine (get_runs s₁)
      have here := walked.holds.pte there
      rw [kept.pte, entry, Option.elim_none] at here
      rw [if_pos here, kept.pte, entry]
      exact Lockstep.throw _
    | some pte =>
    have ready := t.missing_of_pte entry
    have others : ∀ n < 2 ^ 27, n ≠ a → (t.setPte (a * PAGESIZE) none).pte (n * PAGESIZE) = t.pte (n * PAGESIZE) := by
      intro n lt ne
      apply PageTable.pte_setPte_ne
      rw [Nat.mul_div_cancel _ (by decide), Nat.mul_div_cancel _ (by decide), Nat.mod_eq_of_lt lt, Nat.mod_eq_of_lt (by omega)]
      exact ne
    have rest : (t.setPte (a * PAGESIZE) none).frames (a + 1) left = t.frames (a + 1) left :=
      PageTable.frames_congr fun n ge lt => others n (by omega) (by omega)
    have frames : t.frames a (left + 1) = pte.page :: t.frames (a + 1) left := PageTable.frames_succ entry
    have fits := h.fits entry
    rw [frames, ← Multiset.cons_coe, Multiset.add_cons, Multiset.add_cons, Multiset.nodup_cons] at apart
    obtain ⟨new, apart⟩ := apart
    have used : pte.page ∉ s.kmem.freelist := fun mem => new (Multiset.mem_add.2 (.inl mem))
    have other : pte.page ∉ t.tablePages := fun mem => new (Multiset.mem_add.2 (.inr (Multiset.mem_add.2 (.inl mem))))
    have found := PageTable.pte_level3 t (a * PAGESIZE)
    rw [entry] at found
    obtain ⟨l3, there, -⟩ := Option.bind_eq_some_iff.1 found.symm
    have word := h.pte there
    rw [entry, Option.elim_some] at word
    apply Lockstep.machine (h.walks there)
    apply Lockstep.machine (get_runs s)
    apply Lockstep.model (pagewalkDeref_ready ready)
    rw [entry, word, if_neg (pteWord_ne pte), fits.pageOf]
    apply ((kfree_lockstep pte.page s).after (kfree_pushes s.kmem pte.page)).bind
    rintro _ s₁ _ _ ⟨⟨rfl, same⟩, list⟩
    have freed := h.freed other used fits.page list same
    have cleared := freed.set there (y := none) fun _ never => by cases never
    apply Lockstep.machine (setEntry_runs ..)
    rw [next_page (by omega), ← cleared.name]
    have tables : (t.setPte (a * PAGESIZE) none).tablePages = t.tablePages := PageTable.tablePages_setPte ready
    have pool : s₁.kmem.pool = pte.page ::ₘ s.kmem.pool := by
      rw [Kallocator.pool, list]
      rfl
    have apart' : (s₁.kmem.pool + ((t.setPte (a * PAGESIZE) none).tablePages + ↑((t.setPte (a * PAGESIZE) none).frames (a + 1) left))).Nodup := by
      rw [rest, tables, pool, Multiset.cons_add, Multiset.nodup_cons]
      exact ⟨new, apart⟩
    apply (ih (by omega) cleared.holds apart').mono
    rintro _ s₂ t₂ k ⟨rfl, unmapped⟩
    refine ⟨rfl, unmapped.holds, unmapped.name, ?_, ?_, ?_⟩
    · rw [unmapped.pool, rest, tables, frames, ← Multiset.cons_coe, Multiset.add_cons, Multiset.add_cons, ← Multiset.cons_add, ← pool]
      rfl
    · intro page outside unmapped'
      rw [frames, List.mem_cons, not_or] at unmapped'
      rw [unmapped.frame page, Ram.set_ne, same page unmapped'.1]
      · rintro rfl
        exact outside (PageTable.level3_mem there)
      · rw [tables]
        exact outside
      · rw [rest]
        exact unmapped'.2
    · intro n lt
      rw [unmapped.pte n lt]
      rcases eq_or_ne n a with rfl | ne
      · rw [if_neg (by omega), if_pos (by omega), PageTable.pte_setPte ready rfl]
      · rw [others n lt ne]
        have same : (a + 1 ≤ n ∧ n < a + 1 + left) ↔ (a ≤ n ∧ n < a + (left + 1)) := by omega
        simp only [same]

/-- **`pageunmap`** on the words. -/
theorem pageunmap_lockstep {count : Nat} (low : a + count ≤ 2 ^ 27) (h : Holds s clear t)
    (apart : (s.kmem.pool + (t.tablePages + ↑(t.frames a count))).Nodup) :
    Lockstep (pageunmap t.name (a * PAGESIZE) (count * PAGESIZE)) s (Kernel.pageunmap t (a * PAGESIZE) (count * PAGESIZE)) s.kmem
      fun _ s' t' k => s'.kmem = k ∧ Unmapped s clear t a count s' t' := by
  unfold pageunmap Kernel.pageunmap
  rw [if_neg (by simp), if_neg (by simp), Nat.mul_div_cancel _ (by decide)]
  exact unmapPages_lockstep count low h apart

end Unmap

section Free
variable {s s' : Ram} {clear : Clear}

/-- No page has changed but these. -/
def Changes (s : Ram) (pages : Multiset PageNo) (s' : Ram) : Prop := ∀ page, page ∉ pages → s'.word page = s.word page

theorem Changes.trans {s'' : Ram} {pages less : Multiset PageNo} (h : Changes s pages s') (h' : Changes s' less s'') (le : less ≤ pages) :
    Changes s pages s'' := by
  intro page other
  rw [h' page fun mem => other (Multiset.mem_of_le le mem), h page other]

/-- An entry that is no table is passed over. -/
theorem freeEntry_skip {free : PageNo → RamM Unit} {pgt : PageNo} {i : Fin 512}
    (skip : ¬ (isTable (s.word pgt i) = true ∧ s.word pgt i &&& PTE_AF = 0#64)) : freeEntry free pgt i s = .ok ((), s) := by
  unfold freeEntry
  rw [bind_runs (get_runs s), if_neg skip]
  rfl

/-- `free_table` of the third level only frees its page. -/
theorem freeTable_third (depth : Nat) {l3 : Level3} (shown : Level.third.shown s.word l3) :
    Lockstep (freeTable (depth + 1) l3.name) s (Kernel.freeTable (fun _ => pure ()) l3) s.kmem fun _ s' _ k =>
      s'.kmem = k ∧ Changes s (l3.names Level.third.sub) s' := by
  unfold freeTable Kernel.freeTable
  apply (Lockstep.forM (fun _ s' k => s' = s ∧ k = s.kmem) _ _ ⟨rfl, rfl⟩).bind
  rotate_left
  · rintro i is s' k ⟨rfl, rfl⟩
    have here := shown i
    cases entry : l3.entry i with
    | none =>
      rw [entry] at here
      have skip : ¬ (isTable (s'.word l3.name i) = true ∧ s'.word l3.name i &&& PTE_AF = 0#64) := by
        rw [show s'.word l3.name i = 0#64 from here]
        decide
      exact Lockstep.of_runs (freeEntry_skip skip) rfl ⟨rfl, rfl⟩
    | some pte =>
      rw [entry] at here
      have skip : ¬ (isTable (s'.word l3.name i) = true ∧ s'.word l3.name i &&& PTE_AF = 0#64) := by
        rw [here.1]
        exact fun both => pteWord_af pte both.2
      exact Lockstep.of_runs (freeEntry_skip skip) rfl ⟨rfl, rfl⟩
  · rintro _ _ _ _ ⟨rfl, rfl⟩
    apply (kfree_lockstep l3.name _).mono
    rintro _ s' _ k ⟨rfl, same⟩
    refine ⟨rfl, ?_⟩
    intro page other
    apply same
    rintro rfl
    exact other (Table.name_mem ..)

/-- That of a level above frees what is behind its entries first. -/
theorem freeTable_above {β : Type} {L : Level β} {sub : Table (Fin 512) PageNo β → MmM Unit} {depth : Nat}
    (each : ∀ (x : Table (Fin 512) PageNo β) (s : Ram), L.shown s.word x → (x.names L.sub).Nodup →
      Lockstep (freeTable depth x.name) s (sub x) s.kmem fun _ s' _ k => s'.kmem = k ∧ Changes s (x.names L.sub) s')
    {t : Table (Fin 512) PageNo (Table (Fin 512) PageNo β)} (shown : (L.above clear).shown s.word t)
    (nodup : (t.names (Table.names L.sub)).Nodup) :
    Lockstep (freeTable (depth + 1) t.name) s (Kernel.freeTable sub t) s.kmem fun _ s' _ k =>
      s'.kmem = k ∧ Changes s (t.names (Table.names L.sub)) s' := by
  unfold freeTable Kernel.freeTable
  -- the entries that are left, and what is behind them, are as they were
  apply (Lockstep.forM (fun is s' k => s'.kmem = k ∧ is.Nodup ∧ Changes s (t.names (Table.names L.sub)) s' ∧
    ∀ i ∈ is, s'.word t.name i = s.word t.name i ∧ ∀ x, t.entry i = some x → ∀ page ∈ x.names L.sub, s'.word page = s.word page) _ _
    ⟨rfl, List.nodup_finRange 512, fun _ _ => rfl, fun _ _ => ⟨rfl, fun _ _ _ _ => rfl⟩⟩).bind
  rotate_left
  · rintro i is s' _ ⟨rfl, distinct, changes, left⟩
    obtain ⟨new, distinct⟩ := List.nodup_cons.1 distinct
    obtain ⟨word, behind⟩ := left i List.mem_cons_self
    have here := shown i
    cases entry : t.entry i with
    | none =>
      rw [entry] at here
      have skip : ¬ (isTable (s'.word t.name i) = true ∧ s'.word t.name i &&& PTE_AF = 0#64) := by
        rw [word, clear.no_table _ here]
        exact fun both => Bool.false_ne_true both.1
      refine Lockstep.of_runs (freeEntry_skip skip) rfl ⟨rfl, distinct, changes, ?_⟩
      exact fun j mem => left j (List.mem_cons_of_mem i mem)
    | some x =>
      rw [entry] at here
      obtain ⟨table, small, shown'⟩ := here
      rw [← word] at table
      unfold freeEntry
      apply Lockstep.machine (get_runs s')
      dsimp only
      rw [table, if_pos ⟨isTable_tableEntry _, tableEntry_af _⟩, pageOf_tableEntry small]
      have apart := Multiset.nodup_of_le (Table.sub_le_names entry) nodup
      have le : x.names L.sub ≤ t.names (Table.names L.sub) := Table.sub_le_names entry
      change Lockstep _ _ (sub x) _ _
      rw [← bind_pure (sub x)]
      apply (each x s' (L.frame shown' (behind x entry)) apart).bind
      rintro _ s'' _ _ ⟨rfl, below⟩
      refine Lockstep.of_runs (setEntry_runs ..) rfl ⟨rfl, distinct, ?_, ?_⟩
      · intro page other
        rw [Ram.set_ne]
        · exact changes.trans below le page other
        · rintro rfl
          exact other (Table.name_mem ..)
      · intro j mem
        have ne : j ≠ i := by
          rintro rfl
          exact new mem
        obtain ⟨word', behind'⟩ := left j (List.mem_cons_of_mem i mem)
        refine ⟨?_, ?_⟩
        · rw [Ram.set_self, Function.update_of_ne ne, below _ (Table.name_not_mem nodup entry), word']
        · intro y entry' page mem'
          rw [Ram.set_ne, below, behind' y entry' page mem']
          · exact fun mem => ne (Table.entry_inj nodup entry' entry mem' mem)
          · rintro rfl
            exact Table.name_not_mem nodup entry' mem'
  · rintro _ s' _ _ ⟨rfl, -, changes, -⟩
    apply (kfree_lockstep t.name s').mono
    rintro _ s'' _ k ⟨rfl, same⟩
    refine ⟨rfl, ?_⟩
    intro page other
    rw [same page, changes page other]
    rintro rfl
    exact other (Table.name_mem ..)

/-- **`free_table`** on the words. -/
theorem freeTable_lockstep {t : PageTable} (h : Holds s clear t) {depth : Nat} (deep : 3 ≤ depth) :
    Lockstep (freeTable depth t.name) s t.free s.kmem fun _ s' _ k => s'.kmem = k ∧ Changes s t.tablePages s' := by
  obtain ⟨depth, rfl⟩ := Nat.exists_eq_add_of_le' deep
  have third : ∀ (x : Level3) (s : Ram), Level.third.shown s.word x → (x.names Level.third.sub).Nodup →
      Lockstep (freeTable (depth + 1) x.name) s (Kernel.freeTable (fun _ => pure ()) x) s.kmem fun _ s' _ k =>
        s'.kmem = k ∧ Changes s (x.names Level.third.sub) s' := fun _ _ shown _ => freeTable_third depth shown
  have second := fun (x : Level2) (s : Ram) (shown : (Level.second clear).shown s.word x) nodup => freeTable_above third shown nodup
  exact freeTable_above (L := Level.second clear) second h.shows (Multiset.nodup_add.1 h.apart).2.1

end Free

section Userspace
variable {s : Ram} {t : PageTable} {size : Nat}

/-- Memory holds a user table. Its pages, with those it maps, are pages of RAM, all different, and none is free. -/
structure Owned (s : Ram) (t : PageTable) : Prop where
  shows : (Level.first Clear.user).shown s.word t
  apart : (s.kmem.pool + t.owned).Nodup
  ram : ∀ page ∈ s.kmem.pool + t.owned, InRam page

/-- Its tables are apart from the free pages, and from those that it maps. -/
theorem Owned.holds (h : Owned s t) : Holds s Clear.user t := by
  refine ⟨h.shows, ?_, fun page mem => (h.ram page (Multiset.mem_add.2 (.inl mem))).small⟩
  exact Multiset.nodup_of_le (add_le_add_right t.tables_le_owned _) h.apart

theorem Owned.not_free {page : PageNo} (h : Owned s t) (mine : page ∈ t.owned) : page ∉ s.kmem.freelist :=
  fun free => Multiset.disjoint_left.1 (Multiset.nodup_add.1 h.apart).2.2 (Multiset.mem_coe.2 free) mine

/-- It maps `r` pages of an image, and the stack. -/
structure Space (s : Ram) (t : PageTable) (r : Nat) : Prop extends Owned s t where
  image : t.Maps (Image r)

namespace Space
variable {r : Nat}

/-- RAM has pages for no larger image. -/
theorem low (h : Space s t r) : r ≤ 2 ^ 16 := by
  by_contra more
  have there : ∀ n, 1 ≤ n → n < 1 + (2 ^ 16 + 1) → (t.pte (n * PAGESIZE)).isSome :=
    fun n ge lt => (h.image n (by omega)).2 (.inl ⟨ge, by omega⟩)
  have le : (↑(t.frames 1 (2 ^ 16 + 1)) : Multiset PageNo) ≤ s.kmem.pool + t.owned :=
    (Multiset.le_add_left ..).trans ((t.frames_le_owned (by decide)).trans (Multiset.le_add_left ..))
  have nodup := Multiset.coe_nodup.1 (Multiset.nodup_of_le le h.apart)
  have count := length_le_ram nodup fun page mem => h.ram page (Multiset.mem_of_le le (Multiset.mem_coe.2 mem))
  rw [PageTable.frames_length there] at count
  omega

theorem below (h : Space s t r) : 1 + r ≤ STACKPAGE := by
  have stack : 2 ^ 16 + 1 ≤ STACKPAGE := by decide
  have := h.low
  omega

end Space

/-- **`free_userspace`** on the words does what it does on the tree. -/
theorem freeUserspace_lockstep (h : Space s t (PAGEROUNDUP size / PAGESIZE)) {depth : Nat} (deep : 3 ≤ depth) :
    Lockstep (freeUserspace depth t.name size) s (Kernel.freeUserspace t size) s.kmem fun _ s' _ k => s'.kmem = k := by
  have top : STACKPAGE + 1 ≤ 2 ^ 27 := by decide
  have below := h.below
  have apart := h.apart
  rw [h.image.owned_image below] at apart
  obtain ⟨r, whole⟩ : ∃ r, PAGEROUNDUP size = r * PAGESIZE := ⟨_, (PAGEROUNDUP_pages size).symm⟩
  rw [whole, Nat.mul_div_cancel _ (by decide)] at apart below
  unfold freeUserspace Kernel.freeUserspace
  rw [whole, show 0x1000 = 1 * PAGESIZE from rfl, show USTACKBOTTOM = STACKPAGE * PAGESIZE by decide]
  have part : (s.kmem.pool + (t.tablePages + ↑(t.frames 1 r))).Nodup := by
    apply Multiset.nodup_of_le _ apart
    exact add_le_add_right (add_le_add_right (Multiset.coe_le.2 (List.sublist_append_left _ _).subperm) _) _
  apply (pageunmap_lockstep (by omega) h.holds part).bind
  rintro _ s₁ t₁ _ ⟨rfl, image⟩
  have same : t₁.frames STACKPAGE 1 = t.frames STACKPAGE 1 := by
    apply PageTable.frames_congr
    intro n ge lt
    rw [image.pte n (by omega), if_neg (by omega)]
  have part' : (s₁.kmem.pool + (t₁.tablePages + ↑(t₁.frames STACKPAGE 1))).Nodup := by
    rw [same, ← add_assoc, image.pool, add_assoc, add_assoc, Multiset.coe_add]
    exact apart
  have stack := pageunmap_lockstep top image.holds part'
  rw [image.name, Nat.one_mul] at stack
  apply stack.bind
  rintro _ s₂ t₂ _ ⟨rfl, stack⟩
  have tables := freeTable_lockstep stack.holds deep
  rw [stack.name, image.name] at tables
  exact tables.mono fun _ _ _ _ done => done.1

/-- **Every page comes back once.** -/
theorem freeUserspace_frees (h : Space s t (PAGEROUNDUP size / PAGESIZE)) (free : s.kmem.held = false) {depth : Nat} (deep : 3 ≤ depth) :
    ∃ s', freeUserspace depth t.name size s = .ok ((), s') ∧ s'.kmem.held = false ∧ s'.kmem.pool = s.kmem.pool + t.owned ∧
      s'.kmem.freelist.Nodup := by
  obtain ⟨_, k, run, held, pool⟩ := freeUserspace_returns h.image h.below free
  obtain ⟨_, s', run', rfl⟩ := (freeUserspace_lockstep h deep).returns run
  refine ⟨s', run', held, pool, ?_⟩
  have nodup := h.apart
  rw [← pool] at nodup
  exact Multiset.coe_nodup.1 nodup

/-- The frame of a stack, and the pages that are free before it is mapped in an empty table. -/
def stackAttr : BitVec 64 := PTE_NORMAL ||| PTE_U ||| PTE_UXN ||| PTE_PXN
def beforeStack : Ram where
  kmem := { freelist := List.range' 0x40001 8, held := false }
  word _ _ := 0#64

/-- The table of a process without an image, and the memory that holds it. -/
def stackTable : PageTable :=
  match Kernel.pagemap (Table.empty 0x40000) USTACKBOTTOM (0x4000a * PAGESIZE) PAGESIZE stackAttr beforeStack.kmem with
  | .ok r => r.1
  | .error _ => Table.empty 0x40000
def stackRam : Ram :=
  match pagemap 0x40000 USTACKBOTTOM (0x4000a * PAGESIZE) PAGESIZE stackAttr beforeStack with
  | .ok r => r.2
  | .error _ => beforeStack

/-- What has become of the empty table. -/
theorem stack_becomes : Becomes beforeStack Clear.user (Table.empty 0x40000) stackRam stackTable ∧
    stackTable.Maps (Image (PAGEROUNDUP 0 / PAGESIZE)) ∧ stackRam.kmem.held = false ∧
    stackRam.kmem.pool + stackTable.owned = ↑(List.range' 0x40001 8) + {0x40000} + {0x4000a} := by
  have empty : PageTable.Maps (Table.empty 0x40000) fun _ => False := fun n _ => iff_of_false Bool.false_ne_true id
  have before : Holds beforeStack Clear.user (Table.empty 0x40000) := by
    refine ⟨(Level.first Clear.user).fresh rfl, ?_, by decide⟩
    rw [PageTable.tablePages, PageTable.pageNames, Table.names_empty]
    decide
  have bits : PTE_PA stackAttr = 0#64 := by decide
  have returns : Returns (Kernel.pagemap (Table.empty 0x40000) (STACKPAGE * PAGESIZE) (0x4000a * PAGESIZE) PAGESIZE stackAttr)
      beforeStack.kmem fun _ _ => True := pagemap_returns rfl rfl (by decide)
  obtain ⟨t, k, run, -⟩ := returns
  obtain ⟨_, s', run', rfl, becomes⟩ := (pagemap_lockstep bits before _ _ _).returns run
  rw [Table.empty_name] at run'
  have maps := ((pagemap_ends empty (by decide) id 0x4000a stackAttr beforeStack.kmem).1 _ _ run).1
  have pool := pagemap_pool (Table.empty 0x40000) (STACKPAGE * PAGESIZE) 0x4000a stackAttr beforeStack.kmem _ _ run
  have lock := pagemap_lock (Table.empty 0x40000) (STACKPAGE * PAGESIZE) (0x4000a * PAGESIZE) stackAttr rfl _ _ run
  rw [PageTable.owned, PageTable.owned, PageTable.pageNames, PageTable.pageNames, Table.names_empty] at pool
  have table : stackTable = t := by
    rw [stackTable, show USTACKBOTTOM = STACKPAGE * PAGESIZE by decide, run]
  have ram : stackRam = s' := by
    rw [stackRam, show USTACKBOTTOM = STACKPAGE * PAGESIZE by decide, run']
  rw [table, ram]
  refine ⟨becomes, ?_, lock, pool⟩
  intro n lt
  rw [maps n lt, show PAGEROUNDUP 0 / PAGESIZE = 0 by decide]
  show n = STACKPAGE ∨ False ↔ 1 ≤ n ∧ n < 1 + 0 ∨ n = STACKPAGE
  rw [or_false]
  omega

theorem stack_space : Space stackRam stackTable (PAGEROUNDUP 0 / PAGESIZE) := by
  obtain ⟨becomes, image, -, pool⟩ := stack_becomes
  refine ⟨⟨becomes.holds.shows, ?_, ?_⟩, image⟩
  · rw [pool]
    decide
  · rw [pool]
    decide

/-- A process without an image. -/
theorem stack_frees : ∃ s', freeUserspace 3 0x40000 0 stackRam = .ok ((), s') ∧ s'.kmem.held = false ∧
    s'.kmem.pool = stackRam.kmem.pool + stackTable.owned ∧ s'.kmem.freelist.Nodup := by
  obtain ⟨becomes, -, free, -⟩ := stack_becomes
  have root : stackTable.name = 0x40000 := becomes.name
  rw [← root]
  exact freeUserspace_frees stack_space free (Nat.le_refl 3)

end Userspace

end Aarch64Os.Kernel.Words
