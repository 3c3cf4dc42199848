import Aarch64Os.Kernel.Mm.Granted

/-!
# Segments where a file puts them (`kernel/proc.c`, `kernel/mm.c`)

`exec` maps the segments of a file where its headers say, and looks at an address only behind that. A
segment that does not begin at a page, or lies on another one or on the stack, reaches the panics of
`pagemap`; for want of a page the lock of the allocator stays held, and the `kfree` behind does not come
back. The size of the process is the sum of the sizes: where the segments do not cover it from `0x1000`
on, what frees the image later reaches those of `pageunmap`.
-/

namespace Aarch64Os.Kernel
set_option autoImplicit false
open Base

/-- The pages from an address on, as a walk tells them apart. -/
def vpns : Nat → Nat → List Nat
  | 0, _ => []
  | count + 1, va => vpn va :: vpns count ((va + PAGESIZE) % U64)

/-- The tables that are missing once these are mapped. -/
def touches (missing : Nat → Nat) : Nat → Nat → Nat → Nat
  | 0, _ => missing
  | count + 1, va => touches (touch missing va) count ((va + PAGESIZE) % U64)

/-- What `exec` has mapped so far, the tables that are missing, and how many pages are free. -/
structure Mapped where
  pages : List Nat
  missing : Nat → Nat
  free : Nat

/-- The address of a round of `load_prg`. -/
def Phdr.place (ph : Phdr) (j : Nat) : Nat := (ph.p_vaddr + j * PAGESIZE) % U64

namespace Mapped

/-- A new table. -/
def empty (free : Nat) : Mapped := { pages := [], missing := fun _ => 2, free }

/-- A segment is mapped. -/
def add (b : Mapped) (ph : Phdr) : Mapped where
  pages := vpns (rounds 0 ph.p_memsz) ph.p_vaddr ++ b.pages
  missing := touches b.missing (rounds 0 ph.p_memsz) ph.p_vaddr
  free := b.free - need b.missing (rounds 0 ph.p_memsz) ph.p_vaddr

/-- It can be: it is empty, or it begins at a page, no page is mapped twice, and there are pages for all
of it and for the tables. -/
def Takes (b : Mapped) (ph : Phdr) : Prop :=
  ph.p_memsz = 0 ∨ ph.p_vaddr % PAGESIZE = 0 ∧ (b.add ph).pages.Nodup ∧ need b.missing (rounds 0 ph.p_memsz) ph.p_vaddr ≤ b.free

/-- Its first `j` pages can be loaded. -/
def Reads (b : Mapped) (ph : Phdr) (j : Nat) : Prop :=
  ph.p_vaddr % PAGESIZE = 0 ∧ ∀ i < j, vpn (ph.place i) ∈ b.pages ∧ ph.reads (i * PAGESIZE) = true

/-- All of it can be. -/
def Loads (b : Mapped) (ph : Phdr) : Prop := b.Reads ph (rounds 0 ph.p_filesz)

/-- Where loading comes to a page that is not mapped, there are pages for the tables on the way to it. -/
def Walks (b : Mapped) (ph : Phdr) : Prop :=
  ∀ j < rounds 0 ph.p_filesz, b.Reads ph j → vpn (ph.place j) ∉ b.pages → b.missing (ph.place j) ≤ b.free

/-- The headers do no harm: as far as the loop comes every segment can be mapped; behind the last one there
are pages for the stack, where nothing is, and the segments cover the size of the new process. -/
def Harmless (argv : List Nat) : Mapped → Nat → List (Option Phdr) → Prop
  | b, memsize, [] => STACKPAGE ∉ b.pages ∧ b.missing USTACKBOTTOM < b.free ∧
      ((buildStack argv).isSome = true → ∀ n < PAGEROUNDUP memsize / PAGESIZE, 1 + n ∈ b.pages)
  | _, _, none :: _ => True
  | b, memsize, some ph :: phdrs =>
    if ph.p_type ≠ PT_LOAD then Harmless argv b memsize phdrs
    else b.Takes ph ∧ (b.add ph).Walks ph ∧ ((b.add ph).Loads ph → Harmless argv (b.add ph) (memsize + ph.p_memsz) phdrs)

instance (b : Mapped) (ph : Phdr) : Decidable (b.Takes ph) := inferInstanceAs (Decidable (_ ∨ _ ∧ _ ∧ _))

instance (b : Mapped) (ph : Phdr) (j : Nat) : Decidable (b.Reads ph j) := inferInstanceAs (Decidable (_ ∧ _))

instance (b : Mapped) (ph : Phdr) : Decidable (b.Loads ph) := inferInstanceAs (Decidable (b.Reads ..))

instance (b : Mapped) (ph : Phdr) : Decidable (b.Walks ph) :=
  inferInstanceAs (Decidable (∀ j < rounds 0 ph.p_filesz, b.Reads ph j → vpn (ph.place j) ∉ b.pages → b.missing (ph.place j) ≤ b.free))

instance decidableHarmless (argv : List Nat) : ∀ b memsize phdrs, Decidable (Harmless argv b memsize phdrs)
  | b, memsize, [] => inferInstanceAs (Decidable (STACKPAGE ∉ b.pages ∧ b.missing USTACKBOTTOM < b.free ∧
      ((buildStack argv).isSome = true → ∀ n < PAGEROUNDUP memsize / PAGESIZE, 1 + n ∈ b.pages)))
  | _, _, none :: _ => isTrue trivial
  | b, memsize, some ph :: phdrs =>
    if other : ph.p_type ≠ PT_LOAD then
      have := decidableHarmless argv b memsize phdrs
      decidable_of_iff (Harmless argv b memsize phdrs) (by rw [Harmless, if_pos other])
    else
      have := decidableHarmless argv (b.add ph) (memsize + ph.p_memsz) phdrs
      decidable_of_iff (b.Takes ph ∧ (b.add ph).Walks ph ∧ ((b.add ph).Loads ph → Harmless argv (b.add ph) (memsize + ph.p_memsz) phdrs))
        (by rw [Harmless, if_neg other])

/-- This is what a table maps and misses, and what is free. -/
structure Shows (b : Mapped) (t : PageTable) (s : Kallocator) : Prop where
  maps : t.Maps (· ∈ b.pages)
  missing : t.missing = b.missing
  free : s.free = b.free
  lock : s.held = false
  nodup : b.pages.Nodup
  few : b.pages.length + b.free ≤ 2 ^ 16

end Mapped

section Place
variable {t : PageTable} {va : Nat} {s : Kallocator} {pages : List Nat}

/-- A walk looks at the page of an address, in the lower half. -/
theorem PIDX_vpn (va : Nat) : PIDX 1 (vpn va * PAGESIZE) = PIDX 1 va ∧ PIDX 2 (vpn va * PAGESIZE) = PIDX 2 va ∧
    PIDX 3 (vpn va * PAGESIZE) = PIDX 3 va := by
  simp only [PIDX, vpn, PAGESIZE, Fin.ext_iff, Fin.ofNat]
  norm_num
  omega

theorem PageTable.missing_vpn (t : PageTable) (va : Nat) : t.missing (vpn va * PAGESIZE) = t.missing va := by
  obtain ⟨one, two, -⟩ := PIDX_vpn va
  rw [PageTable.missing, PageTable.missing, one, two]

theorem touch_vpn (missing : Nat → Nat) (va : Nat) : touch missing (vpn va * PAGESIZE) = touch missing va := by
  obtain ⟨one, two, -⟩ := PIDX_vpn va
  funext va'
  rw [touch, touch, one, two]

theorem pagewalk_vpn (t : PageTable) (va : Nat) : pagewalk t (vpn va * PAGESIZE) = pagewalk t va := by
  obtain ⟨one, two, -⟩ := PIDX_vpn va
  rw [pagewalk, pagewalk, one, two]

theorem PageTable.setPte_vpn (t : PageTable) (va : Nat) (x : Option Pte) : t.setPte (vpn va * PAGESIZE) x = t.setPte va x := by
  obtain ⟨one, two, three⟩ := PIDX_vpn va
  rw [PageTable.setPte, PageTable.setPte, one, two, three]

theorem vpn_vpn (va : Nat) : vpn (vpn va * PAGESIZE) = vpn va := by
  rw [vpn_page]
  exact Nat.mod_mod _ _

/-- `pagemap` of one page is at that page. -/
theorem pagemap_vpn (t : PageTable) (whole : va % PAGESIZE = 0) (page : PageNo) (attr : BitVec 64) :
    pagemap t va (page * PAGESIZE) PAGESIZE attr = pagemap t (vpn va * PAGESIZE) (page * PAGESIZE) PAGESIZE attr := by
  have entry : ∀ t : PageTable, t.pte (vpn va * PAGESIZE) = t.pte va := fun t => t.pte_vpn (vpn_vpn va)
  unfold pagemap
  rw [if_neg (by simp [whole]), if_neg (by simp), Nat.div_self (by decide)]
  simp only [mapPages, pagewalkDeref, pagewalk_vpn, entry, PageTable.setPte_vpn]

end Place

theorem vpns_length (count : Nat) : ∀ va, (vpns count va).length = count := by
  induction count with
  | zero => exact fun _ => rfl
  | succ count ih => exact fun va => congrArg (· + 1) (ih _)

/-- The page of round `j`. -/
theorem mem_vpns {count j : Nat} (lt : j < count) : ∀ va, vpn ((va + j * PAGESIZE) % U64) ∈ vpns count va := by
  induction count generalizing j with
  | zero => exact absurd lt (Nat.not_lt_zero j)
  | succ count ih =>
    intro va
    cases j with
    | zero =>
      have here : vpn ((va + 0 * PAGESIZE) % U64) = vpn va := by
        simp only [vpn, PAGESIZE, U64]
        omega
      rw [here]
      exact List.mem_cons_self
    | succ j =>
      have next : ((va + PAGESIZE) % U64 + j * PAGESIZE) % U64 = (va + (j + 1) * PAGESIZE) % U64 := by
        simp only [PAGESIZE, U64]
        omega
      rw [← next]
      exact List.mem_cons_of_mem _ (ih (Nat.lt_of_succ_lt_succ lt) _)

section Alloc
variable {s : Kallocator} {t : PageTable} {b : Mapped} {ph : Phdr}

/-- **The loop of `alloc_userspace`**, at any page: where none is mapped twice and there are pages for all of
them and the tables, it comes to its end. -/
theorem allocPages_places (attr : BitVec 64) (size left : Nat) : ∀ {t : PageTable} {pages : List Nat} {va b : Nat} {s : Kallocator},
    t.Maps (· ∈ pages) → va % PAGESIZE = 0 → s.held = false → (vpns (rounds b size) va ++ pages).Nodup →
    need t.missing (rounds b size) va ≤ s.free → b + rounds b size < 2 ^ 50 → rounds b size < left →
    Returns (allocPages attr size left t va (b * PAGESIZE)) s fun r u => r.1 = true ∧
      r.2.Maps (· ∈ vpns (rounds b size) va ++ pages) ∧ r.2.missing = touches t.missing (rounds b size) va ∧
      u.free + need t.missing (rounds b size) va = s.free ∧ u.free + r.2.pages = s.free + t.pages ∧ u.held = false := by
  induction left with
  | zero => exact fun _ _ _ _ _ _ fuel => absurd fuel (Nat.not_lt_zero _)
  | succ left ih =>
    intro t pages va b s maps whole free nodup enough low fuel
    unfold allocPages
    split
    case isFalse ending =>
      rw [rounds_end ending]
      exact Returns.pure ⟨rfl, maps, rfl, rfl, rfl, free⟩
    case isTrue more =>
    rw [rounds_more more, vpns] at nodup
    rw [rounds_more more] at enough low fuel ⊢
    rw [need] at enough ⊢
    obtain ⟨new, nodup'⟩ := List.nodup_cons.1 nodup
    apply (((kalloc_returns free).and_after (kalloc_ends s).1).and_after (kalloc_lock s)).bind
    rintro upage s' ⟨⟨-, taken, full⟩, lock⟩
    cases upage with
    | none =>
      have zero := full.1 rfl
      omega
    | some upage =>
      simp only [Option.elim_some] at taken
      have lt : vpn va < 2 ^ 27 := Nat.mod_lt _ (by decide)
      have other : vpn va ∉ pages := fun mem => new (List.mem_append_right _ mem)
      have grows := pagemap_grows maps lt other upage attr lock (by rw [t.missing_vpn]; omega)
      have pages' := (pagemap_ends maps lt other upage attr s').1
      dsimp only
      rw [pagemap_vpn t whole upage attr]
      apply (grows.and_after pages').bind
      rintro t' u ⟨⟨maps', used, missing, lock'⟩, -, total, -⟩
      rw [t.missing_vpn] at used
      rw [touch_vpn] at missing
      rw [next_page (by omega), vpns, touches, ← missing]
      rw [← missing] at enough
      have here : t'.Maps (· ∈ vpn va :: pages) := fun n small => (maps' n small).trans List.mem_cons.symm
      have swap : (vpns (rounds (b + 1) size) ((va + PAGESIZE) % U64) ++ vpn va :: pages).Perm
          (vpn va :: vpns (rounds (b + 1) size) ((va + PAGESIZE) % U64) ++ pages) := List.perm_middle
      have aligned : (va + PAGESIZE) % U64 % PAGESIZE = 0 := by
        simp only [PAGESIZE, U64] at *
        omega
      apply (ih here aligned lock' (swap.nodup_iff.2 nodup) (by omega) (by omega) (by omega)).mono
      rintro r v ⟨done, all, missing', less, total', lock''⟩
      exact ⟨done, fun n small => (all n small).trans swap.mem_iff, missing', by omega, by omega, lock''⟩

theorem le_rounds (size : Nat) : size ≤ rounds 0 size * PAGESIZE := by
  simp only [rounds, PAGESIZE]
  omega

/-- `alloc_userspace` for a segment that can be mapped. -/
theorem Mapped.Shows.alloc (h : b.Shows t s) (takes : b.Takes ph) :
    Returns (allocUserspace t ph.p_vaddr ph.p_memsz) s fun r u => r.1 = (ph.p_memsz : Int) ∧ (b.add ph).Shows r.2 u ∧
      u.free + r.2.pages = s.free + t.pages := by
  unfold allocUserspace
  apply Returns.step (get_runs s)
  rcases takes with zero | ⟨whole, nodup, enough⟩
  · have none : rounds 0 ph.p_memsz = 0 := by
      rw [zero]
      rfl
    have same : b.add ph = b := by
      unfold Mapped.add
      rw [none]
      rfl
    have ends : allocPages (PTE_NORMAL ||| PTE_U) ph.p_memsz (s.free + 1) t ph.p_vaddr 0 s = .ok ((true, t), s) := by
      rw [zero]
      rfl
    apply Returns.step ends
    apply Returns.pure
    rw [same, zero]
    exact ⟨rfl, h, rfl⟩
  · have few := h.few
    have count := (le_need b.missing (rounds 0 ph.p_memsz) ph.p_vaddr).trans enough
    have size := le_rounds ph.p_memsz
    have loop := allocPages_places (PTE_NORMAL ||| PTE_U) ph.p_memsz (s.free + 1) (b := 0) h.maps whole h.lock nodup
      (by rw [h.missing, h.free]; exact enough) (by omega) (by rw [h.free]; omega)
    rw [Nat.zero_mul] at loop
    apply loop.bind
    rintro ⟨done, t'⟩ u ⟨ended, maps, missing, used, total, lock⟩
    obtain rfl : done = true := ended
    rw [h.missing] at missing used
    have left : u.free = (b.add ph).free := by
      show u.free = b.free - need b.missing (rounds 0 ph.p_memsz) ph.p_vaddr
      rw [← h.free]
      omega
    have int : (BitVec.ofNat 32 ph.p_memsz).toInt = ph.p_memsz := by
      simp only [PAGESIZE] at size
      rw [BitVec.toInt_eq_toNat_of_lt (by rw [BitVec.toNat_ofNat]; omega), BitVec.toNat_ofNat, Nat.mod_eq_of_lt (by omega)]
    apply Returns.pure
    refine ⟨int, ⟨maps, missing, left, lock, nodup, ?_⟩, total⟩
    have more := le_need b.missing (rounds 0 ph.p_memsz) ph.p_vaddr
    rw [← left]
    simp only [Mapped.add, List.length_append, vpns_length]
    rw [h.free] at used
    omega

theorem rounds_le {size k : Nat} (all : size ≤ k * PAGESIZE) : rounds 0 size ≤ k := by
  simp only [rounds, PAGESIZE] at *
  omega

/-- A round of `load_prg` that is not the last. -/
theorem lt_rounds {size k : Nat} (more : k * PAGESIZE < size) : k < rounds 0 size := by
  simp only [rounds, PAGESIZE] at *
  omega

/-- There are more pages than can be mapped. -/
theorem exists_unmapped {pages : List Nat} (few : pages.length ≤ 2 ^ 16) (ph : Phdr) : ∃ m < 2 ^ 17, vpn (ph.place m) ∉ pages := by
  by_contra all
  push Not at all
  have inside : (Finset.range (2 ^ 17)).image (fun m => vpn (ph.place m)) ⊆ pages.toFinset := by
    intro n mem
    obtain ⟨m, lt, rfl⟩ := Finset.mem_image.1 mem
    exact List.mem_toFinset.2 (all m (Finset.mem_range.1 lt))
  have apart : Set.InjOn (fun m => vpn (ph.place m)) (Finset.range (2 ^ 17)) := by
    intro m lt m' lt' same
    have lt := Finset.mem_range.1 (Finset.mem_coe.1 lt)
    have lt' := Finset.mem_range.1 (Finset.mem_coe.1 lt')
    simp only [vpn, Phdr.place, PAGESIZE, U64] at same
    omega
  have count := Finset.card_le_card inside
  rw [Finset.card_image_of_injOn apart, Finset.card_range] at count
  have length := pages.toFinset_card_le
  omega

/-- **The loop of `load_prg`** fails, or it has loaded all of a segment and changed nothing. -/
theorem Mapped.Shows.loadPages (h : b.Shows t s) (whole : ph.p_vaddr % PAGESIZE = 0) (walks : b.Walks ph) (left : Nat) : ∀ {j : Nat},
    b.Reads ph j → (∃ m, j ≤ m ∧ m < j + left ∧ m < 2 ^ 50 ∧ (ph.p_filesz ≤ m * PAGESIZE ∨ vpn (ph.place m) ∉ b.pages)) →
    Returns (loadPages ph.p_filesz ph.reads ph.p_vaddr left t (j * PAGESIZE)) s fun r u =>
      (r.1 < 0 ∧ u.held = false ∧ u.free + r.2.pages = s.free + t.pages) ∨ r = (0, t) ∧ u = s ∧ b.Loads ph := by
  have minus : (-1 : Int) < 0 := by decide
  induction left with
  | zero =>
    rintro j - ⟨m, ge, lt, -⟩
    omega
  | succ left ih =>
    rintro j reads ⟨m, ge, lt, small, ends⟩
    unfold Kernel.loadPages
    split
    case isFalse ending =>
      refine Returns.pure (.inr ⟨rfl, rfl, whole, fun i below => reads.2 i ?_⟩)
      exact lt_of_lt_of_le below (rounds_le (not_lt.1 ending))
    case isTrue more =>
    change Returns (uva2pa t (ph.place j) >>= _) s _
    have entry : t.pte (vpn (ph.place j) * PAGESIZE) = t.pte (ph.place j) := t.pte_vpn (vpn_vpn _)
    have mapped := h.maps (vpn (ph.place j)) (Nat.mod_lt _ (by decide))
    rw [entry] at mapped
    by_cases mem : vpn (ph.place j) ∈ b.pages
    · obtain ⟨pte, there⟩ := Option.isSome_iff_exists.1 (mapped.2 mem)
      have walk : uva2pa t (ph.place j) s = .ok ((pte.page * PAGESIZE + ph.place j % PAGESIZE, t), s) := by
        unfold uva2pa
        rw [bind_runs (pagewalk_ready (t.missing_of_pte there))]
        dsimp only
        rw [there]
        rfl
      apply Returns.step walk
      dsimp only
      split
      · exact Returns.pure (.inl ⟨minus, h.lock, rfl⟩)
      · split
        · rename_i read
          have later : b.Reads ph (j + 1) := by
            refine ⟨whole, fun i below => ?_⟩
            rcases Nat.lt_succ_iff_lt_or_eq.1 below with below | rfl
            · exact reads.2 i below
            · exact ⟨mem, read⟩
          have ne : j ≠ m := by
            rintro rfl
            rcases ends with ends | ends
            · omega
            · exact ends mem
          rw [next_page (by omega)]
          exact ih later ⟨m, by omega, by omega, small, ends⟩
        · exact Returns.pure (.inl ⟨minus, h.lock, rfl⟩)
    · have enough := walks j (lt_rounds more) reads mem
      rw [← h.missing, ← h.free] at enough
      have clear : t.pte (ph.place j) = none := Option.not_isSome_iff_eq_none.1 (mt mapped.1 mem)
      have start : ph.place j % PAGESIZE = 0 := by
        simp only [Phdr.place, PAGESIZE, U64] at *
        omega
      have walk : Returns (uva2pa t (ph.place j)) s fun r u => r.1 = 0 ∧ u.held = false ∧ u.free + r.2.pages = s.free + t.pages := by
        unfold uva2pa
        apply (((pagewalk_returns t _ h.lock).and_after (pagewalk_ends t _ s).1).and_after (pagewalk_lock t _ h.lock)).bind
        rintro ⟨found, t'⟩ u ⟨⟨-, walked⟩, lock⟩
        obtain rfl : found = true := walked.finds.2 enough
        apply Returns.pure
        refine ⟨?_, lock, walked.pages⟩
        show (if true = true then ((t'.pte (ph.place j)).elim 0 fun pte => pte.page * PAGESIZE) + ph.place j % PAGESIZE else 0) = 0
        rw [if_pos rfl, walked.pte, clear, start]
        rfl
      apply walk.bind
      rintro ⟨pa, t'⟩ u ⟨zero, lock, total⟩
      obtain rfl : pa = 0 := zero
      exact Returns.pure (.inl ⟨minus, lock, total⟩)

/-- `load_prg`. -/
theorem Mapped.Shows.load (h : b.Shows t s) (walks : b.Walks ph) : Returns (loadPrg t ph.p_vaddr ph.p_filesz ph.reads) s fun r u =>
    (r.1 < 0 ∧ u.held = false ∧ u.free + r.2.pages = s.free + t.pages) ∨ r = (0, t) ∧ u = s ∧ b.Loads ph := by
  have minus : (-1 : Int) < 0 := by decide
  unfold loadPrg
  split
  case isTrue => exact Returns.pure (.inl ⟨minus, h.lock, rfl⟩)
  case isFalse whole =>
    have whole : ph.p_vaddr % PAGESIZE = 0 := not_not.1 whole
    have few := h.few
    have loop := h.loadPages whole walks (ph.p_filesz / PAGESIZE + 2) (j := 0) ⟨whole, nofun⟩
    rw [Nat.zero_mul] at loop
    apply loop
    rcases Nat.lt_or_ge (2 ^ 17) (rounds 0 ph.p_filesz) with long | short
    · obtain ⟨m, lt, unmapped⟩ := exists_unmapped (show b.pages.length ≤ 2 ^ 16 by omega) ph
      refine ⟨m, Nat.zero_le m, ?_, by omega, .inr unmapped⟩
      simp only [rounds, PAGESIZE] at *
      omega
    · refine ⟨rounds 0 ph.p_filesz, Nat.zero_le _, ?_, by omega, .inl (le_rounds _)⟩
      simp only [rounds, PAGESIZE]
      omega

/-- **The loop of `exec`** over headers that do no harm: it fails, with the lock released, or has mapped all of the
segments. -/
theorem execSegments_harmless (argv : List Nat) (phdrs : List (Option Phdr)) : ∀ {b : Mapped} {t : PageTable} {s : Kallocator}
    {memsize : Nat}, b.Shows t s → Mapped.Harmless argv b memsize phdrs → memsize ≤ b.pages.length * PAGESIZE →
    Returns (execSegments phdrs t memsize) s fun e u => u.free + e.2.pages = s.free + t.pages ∧ u.held = false ∧
      ∀ total, e.1 = some total → ∃ b' : Mapped, b'.Shows e.2 u ∧ Mapped.Harmless argv b' total [] ∧ total ≤ b'.pages.length * PAGESIZE := by
  induction phdrs with
  | nil =>
    intro b t s memsize shows harmless small
    apply Returns.pure
    refine ⟨rfl, shows.lock, ?_⟩
    rintro _ ⟨⟩
    exact ⟨b, shows, harmless, small⟩
  | cons ph phdrs ih =>
    intro b t s memsize shows harmless small
    cases ph with
    | none => exact Returns.pure ⟨rfl, shows.lock, by rintro _ ⟨⟩⟩
    | some ph =>
      rw [Mapped.Harmless] at harmless
      unfold execSegments
      split
      case isTrue other =>
        rw [if_pos other] at harmless
        exact ih shows harmless small
      case isFalse load =>
      rw [if_neg load] at harmless
      obtain ⟨takes, walks, rest⟩ := harmless
      apply (shows.alloc takes).bind
      rintro ⟨sz, t'⟩ u ⟨size, shows', total⟩
      obtain rfl : sz = ph.p_memsz := size
      dsimp only at shows' total ⊢
      rw [if_neg (Int.not_lt.2 (Int.natCast_nonneg _))]
      apply (shows'.load walks).bind
      rintro r v (⟨fails, lock, total'⟩ | ⟨rfl, rfl, loads⟩)
      · rw [if_pos fails]
        exact Returns.pure ⟨total'.trans total, lock, by rintro _ ⟨⟩⟩
      · dsimp only
        have few := shows'.few
        have size := le_rounds ph.p_memsz
        have small' : memsize + ph.p_memsz ≤ (b.add ph).pages.length * PAGESIZE := by
          simp only [Mapped.add, List.length_append, vpns_length, Nat.add_mul]
          omega
        have fits : (memsize + (ph.p_memsz : Int).toNat) % U64 = memsize + ph.p_memsz := by
          rw [Int.toNat_natCast, Nat.mod_eq_of_lt]
          simp only [PAGESIZE, U64] at *
          omega
        rw [if_neg (by decide), fits]
        apply (ih shows' (rest loads) small').mono
        rintro e w ⟨total', lock, last⟩
        exact ⟨total'.trans total, lock, last⟩

end Alloc

/-- A table maps what a size says, and a stack. -/
structure PageTable.Covers (t : PageTable) (size : Nat) : Prop where
  image : ∀ n < PAGEROUNDUP size / PAGESIZE, (t.pte ((1 + n) * PAGESIZE)).isSome
  stack : (t.pte USTACKBOTTOM).isSome
  low : 1 + PAGEROUNDUP size / PAGESIZE ≤ STACKPAGE

section Exec
variable {t : PageTable} {s : Kallocator} {size : Nat}

/-- What is freed in such a table is there. -/
theorem PageTable.Covers.freed (covers : t.Covers size) (s : Kallocator) :
    Ends PagePanic (freeUserspace t size) s fun _ u => u.free ≤ s.free + t.pages := by
  have place : USTACKBOTTOM = STACKPAGE * PAGESIZE := by decide
  have stack := covers.stack
  rw [place] at stack
  have maps : t.Maps fun n => (t.pte (n * PAGESIZE)).isSome = true := fun _ _ => Iff.rfl
  apply freeUserspace_mapped s maps ?_ stack covers.low
  intro n ge lt
  have here := covers.image (n - 1) (by omega)
  rwa [Nat.add_sub_cancel' ge] at here

theorem PageTable.Covers.free_returns (covers : t.Covers size) (free : s.held = false) :
    Returns (freeUserspace t size) s fun _ u => u.free ≤ s.free + t.pages := by
  have frees := freeUserspace_frames (PAGEROUNDUP_pages size).symm covers.image covers.stack covers.low free
  exact (frees.and_after (covers.freed s).1).mono fun _ _ after => after.2

/-- The arguments are counted. -/
theorem pushArgs_count {argc n : Nat} {sp sp' : Int} : ∀ {argv : List Nat}, pushArgs argc sp argv = some (n, sp') → n = argc + argv.length := by
  intro argv
  induction argv generalizing argc sp with
  | nil =>
    intro done
    cases done
    rfl
  | cons len argv ih =>
    intro done
    rw [pushArgs] at done
    split at done
    · cases done
    · have count := ih done
      rw [count, List.length_cons]
      omega

theorem buildStack_count {argv : List Nat} {argc : Nat} (built : buildStack argv = some argc) : argc = argv.length := by
  obtain ⟨⟨n, sp⟩, pushed, rest⟩ := Option.bind_eq_some_iff.1 built
  dsimp only at rest
  split at rest
  · cases rest
  · cases rest
    rw [pushArgs_count pushed, Nat.zero_add]

/-- The stack is mapped where nothing is. -/
theorem Mapped.Shows.mapUstack {b : Mapped} (h : b.Shows t s) (clear : STACKPAGE ∉ b.pages) (enough : b.missing USTACKBOTTOM < b.free) :
    Returns (mapUstack t) s fun m u => m.1 = true ∧ (m.2.Maps fun n => n = STACKPAGE ∨ n ∈ b.pages) ∧
      u.free + m.2.pages = s.free + t.pages ∧ u.held = false := by
  have place : USTACKBOTTOM = STACKPAGE * PAGESIZE := by decide
  have top : STACKPAGE < 2 ^ 27 := by decide
  rw [← h.missing, ← h.free, place] at enough
  unfold Kernel.mapUstack
  apply (((kalloc_returns h.lock).and_after (kalloc_ends s).1).and_after (kalloc_lock s)).bind
  rintro ustack s' ⟨⟨-, taken, full⟩, lock⟩
  cases ustack with
  | none =>
    have zero := full.1 rfl
    omega
  | some ustack =>
    simp only [Option.elim_some] at taken
    rw [place]
    have grows := pagemap_grows h.maps top clear ustack (PTE_NORMAL ||| PTE_U ||| PTE_UXN ||| PTE_PXN) lock (by omega)
    apply (grows.and_after (pagemap_ends h.maps top clear ustack _ s').1).bind
    rintro t' u ⟨⟨maps, -, -, lock'⟩, -, total, -⟩
    apply Returns.pure
    exact ⟨rfl, maps, by simp only; omega, lock'⟩

/-- **`exec`** of a file that does no harm returns -1, or the number of arguments in an address space that covers
the new size. -/
theorem execSpace_harmless {phdrs : List (Option Phdr)} {argv : List Nat} (covers : t.Covers size) (lock : s.held = false)
    (harmless : s.free = 0 ∨ Mapped.Harmless argv (Mapped.empty (s.free - 1)) 0 phdrs) (few : s.free + t.pages ≤ 2 ^ 16) :
    Returns (execSpace t size (some phdrs) argv) s fun e u => (e = (-1, none) ∧ u.free ≤ s.free) ∨
      ∃ new memsize, e = ((argv.length : Int), some (new, memsize)) ∧ new.Covers memsize ∧ u.free + new.pages ≤ s.free + t.pages := by
  have top : STACKPAGE < 2 ^ 27 := by decide
  have above : 2 ^ 16 + 1 ≤ STACKPAGE := by decide
  have place : USTACKBOTTOM = STACKPAGE * PAGESIZE := by decide
  unfold execSpace
  apply (((kalloc_returns lock).and_after (kalloc_ends s).1).and_after (kalloc_lock s)).bind
  rintro page s' ⟨⟨-, taken, full⟩, lock'⟩
  cases page with
  | none => exact Returns.pure (.inl ⟨rfl, by simp only [Option.elim_none] at taken; omega⟩)
  | some page =>
  simp only [Option.elim_some] at taken
  have root : PageTable.pages (Table.empty page) = 1 := Table.weight_empty ..
  have shows : (Mapped.empty (s.free - 1)).Shows (Table.empty page) s' := by
    refine ⟨fun n lt => iff_of_false ?_ List.not_mem_nil, rfl, ?_, lock', List.nodup_nil, ?_⟩
    · simp [PageTable.pte]
    · simp only [Mapped.empty]
      omega
    · simp only [Mapped.empty, List.length_nil]
      omega
  have harmless := harmless.resolve_left (by omega)
  apply (execSegments_harmless argv phdrs shows harmless (Nat.zero_le _)).bind
  rintro ⟨loaded, new⟩ u ⟨total, lock₁, last⟩
  have some₁ := new.pages_pos
  dsimp only at total
  cases loaded with
  | none =>
    apply Returns.step (kfree_free lock₁)
    exact Returns.pure (.inl ⟨rfl, by simp only [Kallocator.free, List.length_cons] at *; omega⟩)
  | some memsize =>
  obtain ⟨b, shows₁, ⟨clear, enough, covered⟩, small⟩ := last memsize rfl
  have few₁ := shows₁.few
  apply (shows₁.mapUstack clear enough).bind
  rintro ⟨mapped, new'⟩ v ⟨done, maps, total', lock₂⟩
  obtain rfl : mapped = true := done
  have some₂ := new'.pages_pos
  dsimp only at maps total' ⊢
  rw [Bool.not_true, if_neg (by decide)]
  cases built : buildStack argv with
  | none =>
    apply Returns.step (kfree_free lock₂)
    exact Returns.pure (.inl ⟨rfl, by simp only [Kallocator.free, List.length_cons] at *; omega⟩)
  | some argc =>
    obtain rfl := buildStack_count built
    apply (covers.free_returns lock₂).bind
    rintro _ w freed
    have low : PAGEROUNDUP memsize / PAGESIZE ≤ 2 ^ 16 := by
      unfold PAGEROUNDUP
      simp only [PAGESIZE, U64] at *
      omega
    refine Returns.pure (.inr ⟨new', memsize, rfl, ⟨fun n lt => ?_, ?_, by omega⟩, by omega⟩)
    · exact (maps (1 + n) (by omega)).2 (.inr (covered (by rw [built]; rfl) n lt))
    · rw [place]
      exact (maps STACKPAGE top).2 (.inl rfl)

end Exec

end Aarch64Os.Kernel
