import Aarch64Os.Kernel.Mm.Userspace

/-!
# No page is lost (`kernel/mm.c`)

How many pages are free behind the functions of `mm.c` and the part of `exec` that builds an
address space, when no allocation fails. One that fails leaves the lock of the allocator held, so
that what frees pages behind it does not return.
-/

namespace Aarch64Os.Kernel
set_option autoImplicit false
open Base

/-- A size is not past its last page. -/
theorem le_PAGEROUNDUP {size : Nat} (small : size < 2 ^ 39) : size ≤ PAGEROUNDUP size := by
  unfold PAGEROUNDUP
  rw [Nat.mod_eq_of_lt (by simp only [PAGESIZE, U64]; omega)]
  simp only [PAGESIZE]
  omega

/-- That of an image with as many pages as there are. -/
theorem size_le_memory {size : Nat} (small : size < 2 ^ 39) (few : PAGEROUNDUP size / PAGESIZE ≤ 2 ^ 16) : size ≤ 2 ^ 28 := by
  have le := le_PAGEROUNDUP small
  rw [← PAGEROUNDUP_pages] at le
  have most : PAGEROUNDUP size / PAGESIZE * PAGESIZE ≤ 2 ^ 16 * PAGESIZE := Nat.mul_le_mul_right _ few
  simp only [PAGESIZE] at *
  omega

section Held
variable {s : Kallocator} {page : PageNo}

theorem acquireKallocator_held (held : s.held = true) : acquireKallocator s = .error (.panic "already held") := by
  unfold acquireKallocator
  rw [bind_runs (get_runs s), if_pos held]
  rfl

theorem kalloc_held (held : s.held = true) : kalloc s = .error (.panic "already held") :=
  fail_bind.2 (.inl (acquireKallocator_held held))

theorem kfree_held (held : s.held = true) : kfree page s = .error (.panic "already held") :=
  fail_bind.2 (.inl (acquireKallocator_held held))

theorem acquireKallocator_free (free : s.held = false) : acquireKallocator s = .ok ((), s) := by
  unfold acquireKallocator
  rw [bind_runs (get_runs s), free]
  rfl

theorem kfree_free (free : s.held = false) : kfree page s = .ok ((), { s with freelist := page :: s.freelist }) := by
  unfold kfree
  rw [bind_runs (acquireKallocator_free free)]
  rfl

/-- `kalloc` takes the first free page, or leaves its lock held. -/
theorem kalloc_after (s : Kallocator) : After kalloc s fun page t =>
    (page = none ∧ t.held = true ∧ t.freelist = s.freelist) ∨ ∃ new, page = some new ∧ s.freelist = new :: t.freelist ∧ t.held = s.held := by
  cases held : s.held with
  | true =>
    intro page t run
    rw [kalloc_held held] at run
    cases run
  | false =>
    unfold kalloc
    refine After.step (acquireKallocator_free held) (After.step (get_runs s) ?_)
    cases list : s.freelist with
    | nil => exact After.step (set_runs ..) (After.pure (.inl ⟨rfl, rfl, rfl⟩))
    | cons new next => exact After.step (set_runs ..) (After.pure (.inr ⟨new, rfl, rfl, held⟩))

/-- A call that frees a page does not return behind an allocation that has failed. -/
theorem kfree_after (s : Kallocator) (page : PageNo) : After (kfree page) s fun _ t => s.held = false ∧ t.held = false := by
  cases held : s.held with
  | true =>
    intro _ t run
    rw [kfree_held held] at run
    cases run
  | false =>
    unfold kfree
    refine After.step (acquireKallocator_free held) ?_
    intro _ t run
    cases run
    exact ⟨rfl, held⟩

/-- The page is the first on the list then. -/
theorem kfree_pushes (s : Kallocator) (page : PageNo) : After (kfree page) s fun _ t => t.freelist = page :: s.freelist := by
  cases held : s.held with
  | true =>
    intro _ t run
    rw [kfree_held held] at run
    cases run
  | false =>
    intro _ t run
    rw [kfree_free held] at run
    cases run
    rfl

/-- The lock behind `kalloc`, and behind what calls it. -/
theorem kalloc_lock (s : Kallocator) : After kalloc s fun page u => u.held = page.isNone := by
  cases held : s.held with
  | true =>
    intro page u run
    rw [kalloc_held held] at run
    cases run
  | false =>
    refine (kalloc_after s).mono ?_
    rintro _ u (⟨rfl, taken, -⟩ | ⟨page, rfl, -, same⟩)
    · exact taken
    · exact same.trans held

theorem nextTable_lock {α : Type} (t : Table (Fin 512) PageNo (Table (Fin 512) PageNo α)) (i : Fin 512) (free : s.held = false) :
    After (nextTable t i) s fun next u => u.held = next.isNone := by
  unfold nextTable
  split
  · exact After.pure free
  · refine (kalloc_lock s).bind ?_
    intro page u lock
    apply After.pure
    rw [lock, Option.isNone_map]

theorem pagewalk_lock (t : PageTable) (va : Nat) (free : s.held = false) : After (pagewalk t va) s fun r u => u.held = !r.1 := by
  unfold pagewalk
  refine (nextTable_lock t _ free).bind ?_
  rintro (_ | l2) u lock
  · exact After.pure lock
  refine (nextTable_lock l2 _ lock).bind ?_
  rintro (_ | l3) v lock'
  · exact After.pure lock'
  · exact After.pure lock'

theorem pagewalkDeref_lock (t : PageTable) (va : Nat) (free : s.held = false) :
    After (pagewalkDeref t va) s fun _ u => u.held = false := by
  unfold pagewalkDeref
  refine (pagewalk_lock t va free).bind ?_
  rintro ⟨found, t'⟩ u lock
  cases found with
  | false => exact After.throw _
  | true => exact After.pure lock

theorem mapPages_lock (attr : BitVec 64) (left : Nat) : ∀ {s : Kallocator} (t : PageTable) (va pa : Nat), s.held = false →
    After (mapPages attr left t va pa) s fun _ u => u.held = false := by
  induction left with
  | zero => exact fun _ _ _ free => After.pure free
  | succ left ih =>
    intro s t va pa free
    unfold mapPages
    refine (pagewalkDeref_lock t va free).bind ?_
    intro t' u lock
    split
    · exact After.throw _
    · exact ih _ _ _ lock

theorem pagemap_lock {size : Nat} (t : PageTable) (va pa : Nat) (attr : BitVec 64) (free : s.held = false) :
    After (pagemap t va pa size attr) s fun _ u => u.held = false := by
  unfold pagemap
  split
  · exact After.throw _
  · exact mapPages_lock attr _ t va pa free

theorem pageunmap_lock (t : PageTable) (va size : Nat) (free : s.held = false) : After (pageunmap t va size) s fun _ u => u.held = false := by
  have loop : ∀ (left : Nat) {s : Kallocator} (t : PageTable) (va : Nat), s.held = false →
      After (unmapPages left t va) s fun _ u => u.held = false := by
    intro left
    induction left with
    | zero => exact fun _ _ free => After.pure free
    | succ left ih =>
      intro s t va free
      unfold unmapPages
      refine (pagewalkDeref_lock t va free).bind ?_
      intro t' u lock
      split
      · exact After.throw _
      · exact (kfree_after _ _).bind fun _ _ freed => ih _ _ freed.2
  unfold pageunmap
  split
  · exact After.throw _
  · exact loop _ t va free

theorem mapUstack_lock (t : PageTable) (s : Kallocator) : After (mapUstack t) s fun m u => u.held = !m.1 := by
  unfold mapUstack
  refine (kalloc_lock s).bind ?_
  rintro (_ | page) u lock
  · exact After.pure lock
  · refine (pagemap_lock t _ _ _ lock).bind ?_
    intro t' v lock'
    exact After.pure lock'

/-- `map_ustack` fails when there is no page. -/
theorem mapUstack_fails (t : PageTable) (s : Kallocator) : After (mapUstack t) s fun m u => m.1 = false → u.held = true := by
  refine (mapUstack_lock t s).mono ?_
  rintro m u lock fails
  rw [lock, fails, Bool.not_false]

/-- So do the loops that take pages. -/
theorem allocPages_fails (attr : BitVec 64) (size left : Nat) : ∀ (t : PageTable) (va p : Nat) (s : Kallocator),
    After (allocPages attr size left t va p) s fun r u => r.1 = false → u.held = true := by
  induction left with
  | zero => exact fun _ _ _ _ => After.throw _
  | succ left ih =>
    intro t va p s
    unfold allocPages
    split
    · refine (kalloc_after s).bind ?_
      rintro _ u (⟨rfl, held, -⟩ | ⟨page, rfl, -⟩)
      · exact After.pure fun _ => held
      · exact After.behind fun t' v => ih t' _ _ v
    · apply After.pure
      intro fails
      cases fails

theorem copyPages_fails (size left : Nat) : ∀ (new old : PageTable) (va p : Nat) (s : Kallocator),
    After (copyPages size left new old va p) s fun r u => r.1 = false → u.held = true := by
  induction left with
  | zero => exact fun _ _ _ _ _ => After.throw _
  | succ left ih =>
    intro new old va p s
    unfold copyPages
    split
    · refine After.behind fun old' s' => (kalloc_after s').bind ?_
      rintro _ u (⟨rfl, held, -⟩ | ⟨page, rfl, -⟩)
      · exact After.pure fun _ => held
      · exact After.behind fun new' v => ih new' old' _ _ v
    · apply After.pure
      intro fails
      cases fails

/-- `cp_userspace` fails when a page is missing, whatever is mapped. -/
theorem cpUserspace_fails (new old : PageTable) (va size : Nat) (s : Kallocator) :
    After (cpUserspace new old va size) s fun c u => c.1 < 0 → u.held = true := by
  unfold cpUserspace
  refine After.step (get_runs s) ((copyPages_fails size _ new old va 0 s).bind fun r u fails => ?_)
  obtain ⟨done, new', old'⟩ := r
  cases done with
  | false => exact After.pure fun _ => fails rfl
  | true =>
    refine After.behind fun old'' v => (mapUstack_fails new' v).bind fun m w fails' => ?_
    obtain ⟨mapped, new''⟩ := m
    refine After.pure fun neg => fails' ?_
    cases mapped with
    | false => rfl
    | true => exact absurd (show (0 : Int) < 0 from neg) (by decide)

end Held

section Walk
variable {t : PageTable} {va : Nat} {s : Kallocator}

/-- A walk to an entry that is there takes no page. -/
theorem pagewalkDeref_mapped (there : (t.pte va).isSome) : After (pagewalkDeref t va) s fun t' u =>
    t'.pages = t.pages ∧ (∀ va, t'.pte va = t.pte va) ∧ u.free = s.free := by
  obtain ⟨pte, entry⟩ := Option.isSome_iff_exists.1 there
  have none := t.missing_of_pte entry
  refine (pagewalkDeref_ends t va s).1.mono fun t' u walked => ⟨?_, walked.pte, ?_⟩
  · have pages := walked.pages
    have used := walked.used rfl
    omega
  · have used := walked.used rfl
    omega

/-- The loop of `cp_userspace` adds no table to the old ones, where it finds what it copies. -/
theorem copyPages_old (size left : Nat) : ∀ {new old : PageTable} {a b : Nat} {s : Kallocator}, a + left < 2 ^ 50 → b + left < 2 ^ 50 →
    (∀ j, (b + j) * PAGESIZE < size → (old.pte ((a + j) * PAGESIZE)).isSome) →
    After (copyPages size left new old (a * PAGESIZE) (b * PAGESIZE)) s fun r _ =>
      r.2.2.pages = old.pages ∧ ∀ va, r.2.2.pte va = old.pte va := by
  induction left with
  | zero => exact fun _ _ _ => After.throw _
  | succ left ih =>
    intro new old a b s low low' there
    unfold copyPages
    split
    · rename_i more
      refine (pagewalkDeref_mapped (there 0 more)).bind ?_
      rintro old' u ⟨pages, same, -⟩
      refine After.behind fun page v => ?_
      cases page with
      | none => exact After.pure ⟨pages, same⟩
      | some page =>
        refine After.behind fun new' w => ?_
        rw [next_page (by omega), next_page (by omega)]
        have later : ∀ j, (b + 1 + j) * PAGESIZE < size → (old'.pte ((a + 1 + j) * PAGESIZE)).isSome := by
          intro j lt
          rw [same, Nat.add_assoc, Nat.add_comm 1 j]
          exact there (j + 1) (by rwa [← Nat.add_assoc, Nat.add_right_comm])
        refine (ih (by omega) (by omega) later).mono ?_
        rintro r x ⟨pages', same'⟩
        exact ⟨pages'.trans pages, fun va => (same' va).trans (same va)⟩
    · exact After.pure ⟨rfl, fun _ => rfl⟩

/-- `cp_userspace` of an image that is mapped leaves the old tables, and fails when a page is missing. -/
theorem cpUserspace_old {new old : PageTable} {size : Nat} (few : s.free < 2 ^ 40)
    (there : ∀ j, j * PAGESIZE < size → (old.pte ((1 + j) * PAGESIZE)).isSome) (stack : (old.pte USTACKBOTTOM).isSome) :
    After (cpUserspace new old 0x1000 size) s fun c u => c.2.2.pages = old.pages ∧ (c.1 < 0 → u.held = true) := by
  refine After.and ?_ (cpUserspace_fails new old 0x1000 size s)
  unfold cpUserspace
  refine After.step (get_runs s) ?_
  have loop := @copyPages_old size (s.free + 1) new old 1 0 s (by omega) (by omega)
    fun j lt => there j (by rwa [Nat.zero_add] at lt)
  rw [Nat.one_mul, Nat.zero_mul] at loop
  refine loop.bind fun r u ⟨pages, same⟩ => ?_
  obtain ⟨done, new', old'⟩ := r
  cases done with
  | false => exact After.pure pages
  | true =>
    refine (pagewalkDeref_mapped (by rw [same]; exact stack)).bind fun old'' v ⟨pages', _, _⟩ => ?_
    exact After.behind fun m w => After.pure (pages'.trans pages)

end Walk

section Free
variable {t : PageTable} {s : Kallocator} {size : Nat}

/-- The indices of a page number. -/
theorem PIDX_parts (i j k : Fin 512) :
    PIDX 1 (((i.val * 512 + j.val) * 512 + k.val) * PAGESIZE) = i ∧ PIDX 2 (((i.val * 512 + j.val) * 512 + k.val) * PAGESIZE) = j ∧
      PIDX 3 (((i.val * 512 + j.val) * 512 + k.val) * PAGESIZE) = k := by
  have hi := i.isLt
  have hj := j.isLt
  have hk := k.isLt
  simp only [PIDX, PAGESIZE, Fin.ext_iff, Fin.ofNat]
  norm_num
  omega

/-- In a table that maps nothing, no third-level entry is left. -/
theorem PageTable.Maps.no_entry (maps : t.Maps fun _ => False) {i j k : Fin 512} {l2 : Level2} {l3 : Level3} (first : t.entry i = some l2)
    (second : l2.entry j = some l3) : l3.entry k = none := by
  obtain ⟨one, two, three⟩ := PIDX_parts i j k
  have entry : t.pte (((i.val * 512 + j.val) * 512 + k.val) * PAGESIZE) = l3.entry k := by
    rw [PageTable.pte, one, two, three, first, Option.bind_some, second, Option.bind_some]
  have low : (i.val * 512 + j.val) * 512 + k.val < 2 ^ 27 := by omega
  have clear := maps _ low
  rw [entry] at clear
  exact Option.not_isSome_iff_eq_none.1 clear.1

/-- All the pages of such a table are its tables, and `free_table` frees them. -/
theorem PageTable.free_exact (maps : t.Maps fun _ => False) (s : Kallocator) :
    After t.free s fun _ u => u.free = s.free + t.pages := by
  have third : ∀ (l3 : Level3) s, Ends PagePanic (freeTable (fun _ => pure ()) l3) s fun _ u =>
      u.free = s.free + l3.weight 1 fun _ => 0 := freeTable_ends fun x s => Ends.pure rfl
  have second := fun (l2 : Level2) s => freeTable_ends third l2 s
  refine (freeTable_ends second t s).1.mono fun _ u freed => ?_
  rw [freed]
  refine congrArg (s.free + ·) (Table.weight_congr fun i l2 first => Table.weight_congr fun j l3 second => Table.weight_congr ?_)
  intro k x entry
  rw [maps.no_entry first second] at entry
  cases entry

/-- `free_userspace` returns all the pages of a process. -/
theorem freeUserspace_exact (s : Kallocator) (image : t.Maps (Image (PAGEROUNDUP size / PAGESIZE)))
    (low : 1 + PAGEROUNDUP size / PAGESIZE ≤ STACKPAGE) :
    After (freeUserspace t size) s fun _ u => u.free = s.free + t.pages := by
  have top : STACKPAGE + 1 ≤ 2 ^ 27 := by decide
  unfold freeUserspace
  rw [← PAGEROUNDUP_pages size, show 0x1000 = 1 * PAGESIZE from rfl, show USTACKBOTTOM = STACKPAGE * PAGESIZE by decide]
  refine (pageunmap_ends s image (fun n ge lt => .inl ⟨ge, lt⟩) (by omega)).1.bind fun t' u ⟨maps, pages⟩ => ?_
  have stack : ∀ n, STACKPAGE ≤ n → n < STACKPAGE + 1 → Image (PAGEROUNDUP size / PAGESIZE) n ∧
      ¬ (1 ≤ n ∧ n < 1 + PAGEROUNDUP size / PAGESIZE) := by
    intro n ge lt
    obtain rfl : n = STACKPAGE := by omega
    exact ⟨.inr rfl, by omega⟩
  have second := (pageunmap_ends u maps stack top).1
  rw [Nat.one_mul] at second
  refine second.bind fun t'' v ⟨maps', pages'⟩ => ?_
  have nothing : t''.Maps fun _ => False := by
    intro n lt
    rw [maps' n lt]
    refine iff_of_false ?_ id
    rintro ⟨⟨inside, other⟩, above⟩
    rcases inside with low | rfl
    · exact other low
    · exact above (by omega)
  exact (t''.free_exact nothing v).mono fun _ w freed => by omega

end Free

section Load
variable {t : PageTable} {s : Kallocator}

/-- The free pages are in RAM. -/
def Kallocator.InRam (s : Kallocator) : Prop := ∀ page ∈ s.freelist, Kernel.InRam page

/-- So are the pages a table maps. -/
def PageTable.InRam (t : PageTable) : Prop := ∀ n < 2 ^ 27, ∀ pte ∈ t.pte (n * PAGESIZE), Kernel.InRam pte.page

theorem Kallocator.InRam.sub {u : Kallocator} (h : s.InRam) (sub : u.freelist ⊆ s.freelist) : u.InRam := fun page mem => h page (sub mem)

/-- A call that takes pages leaves the rest of the free list. -/
theorem kalloc_suffix (s : Kallocator) : After kalloc s fun _ u => u.freelist <:+ s.freelist := by
  refine (kalloc_after s).mono ?_
  rintro _ u (⟨-, -, same⟩ | ⟨new, -, list, -⟩)
  · rw [same]
  · rw [list]
    exact List.suffix_cons new _

theorem nextTable_suffix {α : Type} (t : Table (Fin 512) PageNo (Table (Fin 512) PageNo α)) (i : Fin 512) (s : Kallocator) :
    After (nextTable t i) s fun _ u => u.freelist <:+ s.freelist := by
  unfold nextTable
  split
  · exact After.pure (List.suffix_refl _)
  · refine (kalloc_suffix s).bind ?_
    intro _ u suffix
    exact After.pure suffix

theorem pagewalk_suffix (t : PageTable) (va : Nat) (s : Kallocator) : After (pagewalk t va) s fun _ u => u.freelist <:+ s.freelist := by
  unfold pagewalk
  refine (nextTable_suffix t _ s).bind ?_
  intro l2 u suffix
  cases l2 with
  | none => exact After.pure suffix
  | some l2 =>
    refine (nextTable_suffix l2 _ u).bind ?_
    intro l3 v suffix'
    cases l3 with
    | none => exact After.pure (suffix'.trans suffix)
    | some l3 => exact After.pure (suffix'.trans suffix)

theorem pagewalkDeref_suffix (t : PageTable) (va : Nat) (s : Kallocator) :
    After (pagewalkDeref t va) s fun _ u => u.freelist <:+ s.freelist := by
  unfold pagewalkDeref
  refine (pagewalk_suffix t va s).bind ?_
  intro r u suffix
  obtain ⟨found, t'⟩ := r
  cases found with
  | false => exact After.throw _
  | true => exact After.pure suffix

/-- A page of RAM is mapped. -/
theorem pagemap_ram {n : Nat} {page : PageNo} {attr : BitVec 64} (ram : t.InRam) (pool : s.InRam) (inside : InRam page) (lt : n < 2 ^ 27) :
    After (pagemap t (n * PAGESIZE) (page * PAGESIZE) PAGESIZE attr) s fun t' u => t'.InRam ∧ u.InRam := by
  unfold pagemap
  rw [if_neg (by simp), Nat.div_self (by decide)]
  unfold mapPages
  refine ((pagewalkDeref_ends t (n * PAGESIZE) s).1.and (pagewalkDeref_suffix t _ s)).bind ?_
  rintro t' u ⟨walked, suffix⟩
  split
  · exact After.throw _
  · refine After.pure ⟨fun m low pte entry => ?_, pool.sub suffix.subset⟩
    rcases eq_or_ne m n with rfl | ne
    · rw [PageTable.pte_setPte walked.ready rfl] at entry
      cases entry
      obtain ⟨least, most⟩ := inside
      have whole (page : Nat) (most : page * 4096 < 0x50000000) : page * 4096 / 4096 % 2 ^ 36 = page := by omega
      show InRam (page * PAGESIZE / PAGESIZE % 2 ^ 36)
      rw [whole page most]
      exact ⟨least, most⟩
    · rw [PageTable.pte_setPte_ne] at entry
      · rw [walked.pte] at entry
        exact ram m low pte entry
      · rw [Nat.mul_div_cancel _ (by decide), Nat.mul_div_cancel _ (by decide), Nat.mod_eq_of_lt low, Nat.mod_eq_of_lt lt]
        exact ne

/-- The loop that takes pages maps pages of RAM. -/
theorem allocPages_ram (attr : BitVec 64) (size left : Nat) : ∀ {t : PageTable} {a b : Nat} {s : Kallocator}, t.InRam → s.InRam →
    a + left < 2 ^ 27 → b + left < 2 ^ 50 →
    After (allocPages attr size left t (a * PAGESIZE) (b * PAGESIZE)) s fun r u => r.2.InRam ∧ u.InRam := by
  induction left with
  | zero => exact fun _ _ _ _ => After.throw _
  | succ left ih =>
    intro t a b s ram pool low low'
    unfold allocPages
    split
    · refine (kalloc_after s).bind ?_
      rintro _ u (⟨rfl, -, same⟩ | ⟨page, rfl, list, -⟩)
      · exact After.pure ⟨ram, pool.sub (by rw [same]; exact List.Subset.refl _)⟩
      · have inside : InRam page := pool page (by rw [list]; exact List.mem_cons_self)
        have rest : u.InRam := pool.sub (by rw [list]; exact List.subset_cons_self page _)
        refine (pagemap_ram ram rest inside (by omega)).bind ?_
        rintro t' v ⟨ram', pool'⟩
        rw [next_page (by omega), next_page (by omega)]
        exact ih ram' pool' (by omega) (by omega)
    · exact After.pure ⟨ram, pool⟩

/-- `load_prg` does not fail when all of the segment is mapped to RAM, and read. -/
theorem loadPages_loads (filesz : Nat) (reads : Nat → Bool) (left : Nat) : ∀ {t : PageTable} {b : Nat} {s : Kallocator}, b + left < 2 ^ 50 →
    (∀ j, (b + j) * PAGESIZE < filesz → (∃ pte ∈ t.pte ((1 + b + j) * PAGESIZE), InRam pte.page) ∧ reads ((b + j) * PAGESIZE)) →
    After (loadPages filesz reads 0x1000 left t (b * PAGESIZE)) s fun r _ => r.1 = 0 := by
  induction left with
  | zero => exact fun _ _ => After.throw _
  | succ left ih =>
    intro t b s low there
    unfold loadPages
    split
    · rename_i more
      obtain ⟨⟨pte, entry, inside⟩, read⟩ := there 0 more
      have place : (0x1000 + b * PAGESIZE) % U64 = (1 + b) * PAGESIZE := by
        unfold PAGESIZE U64
        omega
      rw [place]
      refine (uva2pa_mapped entry s).bind ?_
      rintro r u ⟨value, same⟩
      obtain ⟨pa, t'⟩ := r
      have some : pa ≠ 0 := by
        unfold InRam at inside
        dsimp only at value
        omega
      dsimp only
      rw [if_neg some]
      dsimp only [Nat.add_zero] at read
      rw [if_pos read, next_page (by omega)]
      refine ih (by omega) fun j lt => ?_
      have later := there (j + 1) (by rwa [← Nat.add_assoc, Nat.add_right_comm])
      rw [same]
      rwa [← Nat.add_assoc, Nat.add_right_comm (1 + b), ← Nat.add_assoc b, Nat.add_right_comm b] at later
    · exact After.pure rfl

/-- A file that `exec` loads when there are pages for it: its headers can be read, and its segment lies
in the file and is not longer there than in memory; and arguments that fit. -/
def Loads (phdrs : List (Option Phdr)) (argv : List Nat) : Prop :=
  (∀ ph ∈ phdrs, ph.isSome) ∧ (∀ ph ∈ loadable phdrs, ph.p_filesz ≤ PAGEROUNDUP ph.p_memsz ∧
    ∀ p < ph.p_filesz, p % PAGESIZE = 0 → ph.reads p = true) ∧ (buildStack argv).isSome

instance (phdrs : List (Option Phdr)) (argv : List Nat) : Decidable (Loads phdrs argv) := inferInstanceAs (Decidable (_ ∧ _ ∧ _))

/-- A file with a header that cannot be read in front of what there is to load. -/
def Unread (phdrs : List (Option Phdr)) : Prop := (∃ ph ∈ phdrs, ph.isNone) ∧ loadable (phdrs.takeWhile Option.isSome) = []

instance (phdrs : List (Option Phdr)) : Decidable (Unread phdrs) := inferInstanceAs (Decidable (_ ∧ _))

/-- The loop of `exec` on such a file fails before it takes a page. -/
theorem execSegments_unread {phdrs : List (Option Phdr)} (unread : Unread phdrs) (memsize : Nat) (s : Kallocator) :
    After (execSegments phdrs t memsize) s fun e u => e = (none, t) ∧ u = s := by
  obtain ⟨missing, nothing⟩ := unread
  induction phdrs with
  | nil => simp at missing
  | cons ph phdrs ih =>
    cases ph with
    | none => exact After.pure ⟨rfl, rfl⟩
    | some ph =>
      rw [List.takeWhile_cons_of_pos rfl] at nothing
      unfold loadable at nothing ih
      rw [List.reduceOption_cons_of_some] at nothing
      unfold execSegments
      split
      · rename_i other
        rw [List.filter_cons_of_neg (by simpa using other)] at nothing
        exact ih (by simpa using missing) nothing
      · rename_i load
        rw [List.filter_cons_of_pos (by simpa using load)] at nothing
        cases nothing

/-- `exec` of such a file gives the page of the new table back. -/
theorem execSpace_unread {phdrs : List (Option Phdr)} (unread : Unread phdrs) (size : Nat) (argv : List Nat) (s : Kallocator) :
    After (execSpace t size (some phdrs) argv) s fun e u => e.2 = none ∧ (u.held = true ∨ u.free = s.free) := by
  unfold execSpace
  refine ((kalloc_ends s).1.and (kalloc_after s)).bind ?_
  rintro _ s' ⟨⟨taken, -⟩, ⟨rfl, held, -⟩ | ⟨page, rfl, -⟩⟩
  · exact After.pure ⟨rfl, .inl held⟩
  · refine (execSegments_unread unread 0 s').bind ?_
    rintro _ u ⟨rfl, rfl⟩
    refine (kfree_ends u page).1.bind fun _ v freed => ?_
    refine After.pure ⟨rfl, .inr ?_⟩
    rw [freed, ← taken, Option.elim_some]

/-- Headers that can be read, and without a loadable segment. -/
theorem execSegments_skips {phdrs : List (Option Phdr)} (nothing : loadable phdrs = []) (readable : ∀ ph ∈ phdrs, ph.isSome) (memsize : Nat)
    (s : Kallocator) : After (execSegments phdrs t memsize) s fun e _ => e.1 ≠ none := by
  induction phdrs with
  | nil => exact After.pure nofun
  | cons ph phdrs ih =>
    cases ph with
    | none => exact nomatch readable none List.mem_cons_self
    | some ph =>
      unfold execSegments
      unfold loadable at nothing ih
      rw [List.reduceOption_cons_of_some] at nothing
      split
      · rename_i other
        rw [List.filter_cons_of_neg (by simpa using other)] at nothing
        exact ih nothing fun ph mem => readable ph (List.mem_cons_of_mem _ mem)
      · rename_i load
        rw [List.filter_cons_of_pos (by simpa using load)] at nothing
        cases nothing

/-- The loop of `exec` on such a file fails only when a page is missing. -/
theorem execSegments_loads {phdrs : List (Option Phdr)} (base : AtBase phdrs) (readable : ∀ ph ∈ phdrs, ph.isSome)
    (whole : ∀ ph ∈ loadable phdrs, ph.p_filesz ≤ PAGEROUNDUP ph.p_memsz ∧ ∀ p < ph.p_filesz, p % PAGESIZE = 0 → ph.reads p = true)
    (empty : t.Maps fun _ => False) (pool : s.InRam) (few : s.free ≤ 2 ^ 16) :
    After (execSegments phdrs t 0) s fun e u => e.1 = none → u.held = true := by
  induction phdrs with
  | nil => exact After.pure nofun
  | cons ph phdrs ih =>
  cases ph with
  | none => exact nomatch readable none List.mem_cons_self
  | some ph =>
  unfold execSegments
  unfold AtBase loadable at base
  unfold loadable at whole
  rw [List.reduceOption_cons_of_some] at base whole
  split
  case isTrue other =>
    rw [List.filter_cons_of_neg (by simpa using other)] at base whole
    exact ih base (fun ph mem => readable ph (List.mem_cons_of_mem _ mem)) whole
  case isFalse load =>
  rw [List.filter_cons_of_pos (by simpa using load)] at base whole
  have start : ph.p_vaddr = 0x1000 := base.2 ph List.mem_cons_self
  have last : loadable phdrs = [] := List.eq_nil_of_length_eq_zero (Nat.le_zero.1 (Nat.le_of_succ_le_succ base.1))
  obtain ⟨inside, reads⟩ := whole ph List.mem_cons_self
  rw [start]
  unfold allocUserspace
  rw [bind_assoc]
  refine After.step (get_runs s) ?_
  rw [bind_assoc]
  have ram : t.InRam := fun n lt pte entry => by
    have none := (empty n lt).1
    rw [entry] at none
    exact (none rfl).elim
  have taken := (allocPages_ends (PTE_NORMAL ||| PTE_U) ph.p_memsz (s.free + 1) (a := 1) (b := 0) (s := s) empty
    (fun _ _ _ => id) (by omega) (by omega)).1
  have mapped := allocPages_ram (PTE_NORMAL ||| PTE_U) ph.p_memsz (s.free + 1) (a := 1) (b := 0) (s := s) ram pool (by omega) (by omega)
  refine ((taken.and mapped).and (allocPages_fails _ _ _ _ _ _ _)).bind ?_
  rintro ⟨done, t'⟩ u ⟨⟨⟨k, le, maps, -, -, before, ended, -⟩, ram', -⟩, fails⟩
  rw [pure_bind]
  cases done with
  | false => exact After.pure fun _ => fails rfl
  | true =>
  simp only [Nat.zero_add, true_iff] at before ended
  have bound : k * PAGESIZE ≤ 2 ^ 16 * PAGESIZE := Nat.mul_le_mul_right _ (by omega)
  have small : ph.p_memsz ≤ 2 ^ 28 := by
    simp only [PAGESIZE] at *
    omega
  have int : (BitVec.ofNat 32 ph.p_memsz).toInt = ph.p_memsz := by
    rw [BitVec.toInt_eq_toNat_of_lt (by rw [BitVec.toNat_ofNat]; omega), BitVec.toNat_ofNat, Nat.mod_eq_of_lt (by omega)]
  have size : PAGEROUNDUP ph.p_memsz = k * PAGESIZE := PAGEROUNDUP_eq (by omega) ended before
  simp only [if_true, int]
  rw [if_neg (by omega)]
  rw [size] at inside
  have loads : After (loadPrg t' 0x1000 ph.p_filesz ph.reads) u fun r _ => r.1 = 0 := by
    unfold loadPrg
    rw [if_neg (by decide)]
    have rounds : ph.p_filesz / PAGESIZE + 2 < 2 ^ 50 := by
      simp only [PAGESIZE] at *
      omega
    have loop := loadPages_loads ph.p_filesz ph.reads (ph.p_filesz / PAGESIZE + 2) (t := t') (b := 0) (s := u) (by omega) fun j lt => ?_
    · rwa [Nat.zero_mul] at loop
    · rw [Nat.zero_add] at lt ⊢
      have page : j < k := Nat.lt_of_mul_lt_mul_right (lt_of_lt_of_le lt inside)
      have there := (maps (1 + j) (by omega)).2 (.inr (by omega))
      obtain ⟨pte, entry⟩ := Option.isSome_iff_exists.1 there
      exact ⟨⟨pte, entry, ram' (1 + j) (by omega) pte entry⟩, reads _ lt (Nat.mul_mod_left ..)⟩
  refine loads.bind fun r v zero => ?_
  obtain ⟨r, t''⟩ := r
  dsimp only at zero ⊢
  rw [zero, if_neg (by decide)]
  exact (execSegments_skips last (fun ph mem => readable ph (List.mem_cons_of_mem _ mem)) _ v).mono fun e w some fails => absurd fails some

/-- The sizes that are summed are those of `int`s. -/
theorem execSegments_small (phdrs : List (Option Phdr)) : ∀ (t : PageTable) (memsize : Nat) (s : Kallocator),
    After (execSegments phdrs t memsize) s fun e _ => ∀ total, e.1 = some total → total ≤ memsize + 2 ^ 31 * (loadable phdrs).length := by
  induction phdrs with
  | nil =>
    intro t memsize s
    apply After.pure
    rintro _ ⟨⟩
    exact Nat.le_add_right ..
  | cons ph phdrs ih =>
    intro t memsize s
    cases ph with
    | none => exact After.pure (by intro _ never; cases never)
    | some ph =>
      unfold execSegments
      unfold loadable at ih ⊢
      rw [List.reduceOption_cons_of_some]
      split
      · rename_i other
        rw [List.filter_cons_of_neg (by simpa using other)]
        exact ih t memsize s
      · rename_i load
        rw [List.filter_cons_of_pos (by simpa using load), List.length_cons]
        unfold allocUserspace
        rw [bind_assoc]
        refine After.behind fun _ _ => ?_
        rw [bind_assoc]
        refine After.behind fun r u => ?_
        rw [pure_bind]
        dsimp only
        have small : (if r.1 then (BitVec.ofNat 32 ph.p_memsz).toInt else -1).toNat < 2 ^ 31 := by
          have most : (BitVec.ofNat 32 ph.p_memsz).toInt < 2 ^ 31 := BitVec.toInt_lt
          split <;> omega
        generalize (if r.1 then (BitVec.ofNat 32 ph.p_memsz).toInt else -1) = sz at small ⊢
        split
        · exact After.pure (by intro _ never; cases never)
        · refine After.behind fun l v => ?_
          split
          · exact After.pure (by intro _ never; cases never)
          · refine (ih _ _ v).mono fun e w within total sum => ?_
            have sum := within total sum
            have less := Nat.mod_le (memsize + sz.toNat) U64
            omega

/-- So is the new size of a process. -/
theorem execSpace_small (phdrs : List (Option Phdr)) (size : Nat) (argv : List Nat) (s : Kallocator) :
    After (execSpace t size (some phdrs) argv) s fun e _ => ∀ new memsize, e.2 = some (new, memsize) → memsize ≤ 2 ^ 31 * (loadable phdrs).length := by
  unfold execSpace
  refine After.behind fun page u => ?_
  split
  · exact After.pure nofun
  · refine (execSegments_small phdrs _ 0 u).bind ?_
    rintro ⟨loaded, new⟩ v small
    cases loaded with
    | none => exact After.behind fun _ _ => After.pure nofun
    | some total =>
      refine After.behind fun m w => ?_
      obtain ⟨mapped, new'⟩ := m
      cases mapped with
      | false => exact After.throw _
      | true =>
        simp only [Bool.not_true, Bool.false_eq_true, if_false]
        split
        · exact After.behind fun _ _ => After.pure nofun
        · refine After.behind fun _ _ => After.pure ?_
          rintro new' memsize ⟨⟩
          have bound := small total rfl
          omega

/-- `exec` of such a file loses no page, or one was missing. -/
theorem execSpace_exact {phdrs : List (Option Phdr)} {argv : List Nat} {size : Nat} (base : AtBase phdrs) (loads : Loads phdrs argv)
    (pool : s.InRam) (few : s.free + t.pages ≤ 2 ^ 16) (image : t.Maps (Image (PAGEROUNDUP size / PAGESIZE)))
    (low : 1 + PAGEROUNDUP size / PAGESIZE ≤ STACKPAGE) :
    After (execSpace t size (some phdrs) argv) s fun e u => (e.2 = none ∧ u.held = true) ∨
      ∃ new memsize, e.2 = some (new, memsize) ∧ u.free + new.pages = s.free + t.pages := by
  have top : 2 ^ 16 + 1 ≤ STACKPAGE := by decide
  obtain ⟨readable, whole, args⟩ := loads
  unfold execSpace
  refine ((kalloc_ends s).1.and (kalloc_after s)).bind ?_
  rintro _ s' ⟨⟨taken, -⟩, ⟨rfl, held, -⟩ | ⟨page, rfl, list, -⟩⟩
  · exact After.pure (.inl ⟨rfl, held⟩)
  simp only [Option.elim_some] at taken
  have empty : PageTable.Maps (Table.empty page) fun _ => False := fun n _ => iff_of_false (by simp [PageTable.pte]) id
  have root : PageTable.pages (Table.empty page) = 1 := Table.weight_empty ..
  have rest : s'.InRam := pool.sub (by rw [list]; exact List.subset_cons_self page _)
  refine ((execSegments_ends base s' empty (by omega)).1.and (execSegments_loads base readable whole empty rest (by omega))).bind ?_
  rintro ⟨loaded, new⟩ u ⟨⟨sized, pages⟩, fails⟩
  cases loaded with
  | none =>
    refine (kfree_after u new.name).bind ?_
    rintro _ v ⟨free, -⟩
    rw [fails rfl] at free
    cases free
  | some memsize =>
  obtain ⟨maps, few', -⟩ := sized memsize rfl
  have some := new.pages_pos
  dsimp only
  refine (mapUstack_ends u maps (by omega)).1.bind ?_
  rintro ⟨mapped, new'⟩ v ⟨-, pages', -⟩
  cases mapped with
  | false => exact After.throw _
  | true =>
  simp only [Bool.not_true, Bool.false_eq_true, if_false]
  obtain ⟨argc, build⟩ := Option.isSome_iff_exists.1 args
  rw [build]
  refine (freeUserspace_exact v image low).bind fun _ w freed => ?_
  refine After.pure (.inr ⟨new', memsize, rfl, ?_⟩)
  simp only at *
  omega

/-- `grow_userspace` maps what the new size says, or a page was missing. -/
theorem growUserspace_exact {size newsz b : Nat} (s : Kallocator) (whole : PAGEROUNDUP size = b * PAGESIZE) (image : t.Maps (Image b))
    (few : s.free + b ≤ 2 ^ 16) (above : b = 0 ∨ (b - 1) * PAGESIZE < newsz) :
    After (growUserspace t 0x1000 size newsz) s fun g u => u.free + g.2.pages = s.free + t.pages ∧ t.pages ≤ g.2.pages ∧
      (g.1 = none ∧ u.held = true ∨ g.1 = some ((0x1000 + size) % U64) ∧
        ∃ k ≤ s.free, g.2.Maps (Image (b + k)) ∧ PAGEROUNDUP newsz = (b + k) * PAGESIZE ∧ t.pages + k ≤ g.2.pages) := by
  have top : 2 ^ 16 + 1 < STACKPAGE := by decide
  have top' : STACKPAGE < 2 ^ 27 := by decide
  have start : 0x1000 + b * PAGESIZE = (1 + b) * PAGESIZE := by rw [Nat.add_mul, Nat.one_mul]
  unfold growUserspace
  dsimp only
  refine After.step (get_runs s) ?_
  rw [whole, start, Nat.mod_eq_of_lt (by simp only [PAGESIZE, U64]; omega)]
  have new : ∀ n, 1 + b ≤ n → n < 1 + b + s.free → ¬ Image b n := by
    rintro n ge lt (⟨-, lt'⟩ | rfl) <;> omega
  have loop := (allocPages_ends (PTE_NORMAL ||| PTE_U ||| PTE_UXN ||| PTE_PXN) newsz (s.free + 1) (a := 1 + b) (b := b) (s := s) image new
    (by omega) (by omega)).1
  refine (loop.and (allocPages_fails _ _ _ _ _ _ _)).bind ?_
  rintro ⟨done, t'⟩ u ⟨⟨k, le, maps, pages, grown, before, ended, -⟩, fails⟩
  refine After.pure ⟨pages, (Nat.le_add_right _ k).trans grown, ?_⟩
  cases done with
  | false => exact .inl ⟨rfl, fails rfl⟩
  | true =>
    refine .inr ⟨rfl, k, le, fun n lt => ?_, ?_, grown⟩
    · rw [maps n lt]
      unfold Image
      omega
    · apply PAGEROUNDUP_eq (by omega) (ended.1 rfl)
      intro j lt
      rcases Nat.lt_or_ge j b with low | high
      · rcases above with zero | above
        · omega
        · refine lt_of_le_of_lt (Nat.mul_le_mul_right _ ?_) above
          omega
      · have later := before (j - b) (by omega)
        rwa [Nat.add_sub_cancel' high] at later

end Load

end Aarch64Os.Kernel
