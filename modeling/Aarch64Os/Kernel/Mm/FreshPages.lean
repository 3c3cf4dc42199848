import Aarch64Os.Kernel.Mm.PageCount

/-!
# Which pages a table maps (`kernel/mm.c`)

A table that is being built maps pages that were free before and are not free now, no page at two
places. The functions that map pages keep this, also when they fail. What frees an address space
puts only its own pages, and what was free before, on the free list.
-/

namespace Aarch64Os.Kernel
set_option autoImplicit false
open Base

/-- The bits of an address that a walk looks at. -/
def vpn (va : Nat) : Nat := va / PAGESIZE % 2 ^ 27

/-- The physical address that an entry gives a user address. -/
def Pte.addr (pte : Pte) (va : Nat) : Nat := pte.page * PAGESIZE + va % PAGESIZE

/-- The pages `t` maps are from `pool` and not free, each is mapped once, and the free ones are from
`pool` too. -/
structure PageTable.Fresh (t : PageTable) (s : Kallocator) (pool : PageNo → Prop) : Prop where
  ram : ∀ page, pool page → Kernel.InRam page
  nodup : s.freelist.Nodup
  free : ∀ page ∈ s.freelist, pool page
  taken : ∀ va pte, t.pte va = some pte → pool pte.page ∧ pte.page ∉ s.freelist
  inj : ∀ va va' pte pte', t.pte va = some pte → t.pte va' = some pte' → pte.page = pte'.page → vpn va = vpn va'

/-- Entries only come to a table, and what comes is from the pages that were free. -/
structure PageTable.Grows (t : PageTable) (s : Kallocator) (t' : PageTable) (u : Kallocator) : Prop where
  suffix : u.freelist <:+ s.freelist
  kept : ∀ va pte, t.pte va = some pte → t'.pte va = some pte

theorem Pte.addr_page (pte : Pte) (va : Nat) : pte.addr va / PAGESIZE = pte.page := by
  simp only [Pte.addr, PAGESIZE]
  omega

section Map
variable {t t' t'' : PageTable} {s u v : Kallocator} {va va' : Nat} {pool : PageNo → Prop}

/-- Addresses a walk does not tell apart. -/
theorem PageTable.pte_vpn (t : PageTable) (same : vpn va = vpn va') : t.pte va = t.pte va' := by
  have one : PIDX 1 va = PIDX 1 va' := by
    simp only [PIDX, vpn, PAGESIZE, Fin.ext_iff, Fin.ofNat] at *
    norm_num at *
    omega
  have two : PIDX 2 va = PIDX 2 va' := by
    simp only [PIDX, vpn, PAGESIZE, Fin.ext_iff, Fin.ofNat] at *
    norm_num at *
    omega
  have three : PIDX 3 va = PIDX 3 va' := by
    simp only [PIDX, vpn, PAGESIZE, Fin.ext_iff, Fin.ofNat] at *
    norm_num at *
    omega
  unfold PageTable.pte
  rw [one, two, three]

/-- Two user addresses have different physical ones. -/
theorem PageTable.Fresh.addr_inj {pte pte' : Pte} (h : t.Fresh s pool) (there : t.pte va = some pte) (there' : t.pte va' = some pte')
    (low : va < 2 ^ 39) (low' : va' < 2 ^ 39) (same : pte.addr va = pte'.addr va') : va = va' := by
  have page := congrArg (· / PAGESIZE) same
  simp only [Pte.addr_page] at page
  have number := h.inj va va' pte pte' there there' page
  simp only [Pte.addr, page, vpn, PAGESIZE] at same number
  omega

theorem PageTable.Grows.refl (t : PageTable) (s : Kallocator) : t.Grows s t s := ⟨List.suffix_refl _, fun _ _ => id⟩

theorem PageTable.Grows.trans (first : t.Grows s t' u) (second : t'.Grows u t'' v) : t.Grows s t'' v where
  suffix := second.suffix.trans first.suffix
  kept va pte there := second.kept va pte (first.kept va pte there)

/-- A walk maps nothing. -/
theorem PageTable.Grows.walk (same : ∀ va, t'.pte va = t.pte va) (suffix : u.freelist <:+ s.freelist) : t.Grows s t' u where
  suffix := suffix
  kept va _ there := (same va).trans there

theorem PageTable.Fresh.walk (h : t.Fresh s pool) (same : ∀ va, t'.pte va = t.pte va) (suffix : u.freelist <:+ s.freelist) :
    t'.Fresh u pool where
  ram := h.ram
  nodup := h.nodup.sublist suffix.sublist
  free page mem := h.free page (suffix.subset mem)
  taken va pte there := by
    obtain ⟨mine, used⟩ := h.taken va pte ((same va).symm.trans there)
    exact ⟨mine, fun mem => used (suffix.subset mem)⟩
  inj va va' pte pte' there there' := h.inj va va' pte pte' ((same va).symm.trans there) ((same va').symm.trans there')

/-- What `pagemap` of one page does when it returns. -/
structure PageTable.Mapped (t : PageTable) (s : Kallocator) (va : Nat) (page : PageNo) (t' : PageTable) (u : Kallocator) : Prop where
  aligned : va % PAGESIZE = 0
  clear : t.pte va = none
  here : ∃ attr, t'.pte va = some { page := page % 2 ^ 36, attr }
  others : ∀ va', vpn va' ≠ vpn va → t'.pte va' = t.pte va'
  suffix : u.freelist <:+ s.freelist

theorem pagemap_after (t : PageTable) (va : Nat) (page : PageNo) (attr : BitVec 64) (s : Kallocator) :
    After (pagemap t va (page * PAGESIZE) PAGESIZE attr) s fun t' u => t.Mapped s va page t' u := by
  unfold pagemap
  split
  · exact After.throw _
  · rename_i whole
    rw [Nat.div_self (by decide)]
    unfold mapPages
    refine ((pagewalkDeref_ends t va s).1.and (pagewalkDeref_suffix t va s)).bind ?_
    rintro t' u ⟨walked, suffix⟩
    split
    · exact After.throw _
    · rename_i clear
      rw [walked.pte, Option.not_isSome_iff_eq_none] at clear
      apply After.pure
      constructor
      · omega
      · exact clear
      · refine ⟨attr, ?_⟩
        rw [PageTable.pte_setPte walked.ready rfl, Nat.mul_div_cancel _ (by decide)]
      · intro va' ne
        rw [PageTable.pte_setPte_ne _ _ ne, walked.pte]
      · exact suffix

/-- A page that was free is mapped. -/
theorem PageTable.Fresh.map {page : PageNo} (h : t.Fresh s pool) (list : s.freelist = page :: u.freelist)
    (mapped : t.Mapped u va page t' v) : t'.Fresh v pool ∧ t.Grows s t' v ∧ ∃ pte, t'.pte va = some pte ∧ pte.page = page := by
  obtain ⟨attr, here⟩ := mapped.here
  have mine : pool page := h.free page (by rw [list]; exact List.mem_cons_self)
  have small : page % 2 ^ 36 = page := by
    obtain ⟨-, most⟩ := h.ram page mine
    simp only [PAGESIZE] at most
    exact Nat.mod_eq_of_lt (by omega)
  rw [small] at here
  have rest : u.freelist <:+ s.freelist := by
    rw [list]
    exact List.suffix_cons page _
  have suffix := mapped.suffix.trans rest
  have once : page ∉ u.freelist := by
    have nodup := h.nodup
    rw [list] at nodup
    exact (List.nodup_cons.1 nodup).1
  -- an entry of the new table is the new one, or was there
  have cases : ∀ va' pte, t'.pte va' = some pte → vpn va' = vpn va ∧ pte.page = page ∨ vpn va' ≠ vpn va ∧ t.pte va' = some pte := by
    intro va' pte there
    rcases eq_or_ne (vpn va') (vpn va) with same | other
    · rw [t'.pte_vpn same, here] at there
      cases there
      exact .inl ⟨same, rfl⟩
    · rw [mapped.others va' other] at there
      exact .inr ⟨other, there⟩
  have new : ∀ va' pte, t.pte va' = some pte → pte.page ≠ page := by
    rintro va' pte there rfl
    exact (h.taken va' pte there).2 (by rw [list]; exact List.mem_cons_self)
  refine ⟨?_, ?_, _, here, rfl⟩
  · constructor
    · exact h.ram
    · exact h.nodup.sublist suffix.sublist
    · exact fun page mem => h.free page (suffix.subset mem)
    · intro va' pte there
      rcases cases va' pte there with ⟨-, same⟩ | ⟨-, old⟩
      · rw [same]
        exact ⟨mine, fun mem => once (mapped.suffix.subset mem)⟩
      · obtain ⟨pooled, used⟩ := h.taken va' pte old
        exact ⟨pooled, fun mem => used (suffix.subset mem)⟩
    · intro a b pte pte' there there' same
      rcases cases a pte there with ⟨at_va, one⟩ | ⟨-, old⟩
      · rcases cases b pte' there' with ⟨at_va', -⟩ | ⟨-, old'⟩
        · exact at_va.trans at_va'.symm
        · exact absurd (same.symm.trans one) (new b pte' old')
      · rcases cases b pte' there' with ⟨-, one⟩ | ⟨-, old'⟩
        · exact absurd (same.trans one) (new a pte old)
        · exact h.inj a b pte pte' old old' same
  · constructor
    · exact suffix
    · intro va' pte there
      rw [mapped.others]
      · exact there
      · intro same
        rw [t.pte_vpn same, mapped.clear] at there
        cases there

/-- The loop that takes pages and maps them. Every address it has come past is mapped to a page that
was free. -/
theorem allocPages_fresh (attr : BitVec 64) (size left : Nat) : ∀ {t : PageTable} {va p : Nat} {s : Kallocator}, t.Fresh s pool →
    After (allocPages attr size left t va p) s fun r u => r.2.Fresh u pool ∧ t.Grows s r.2 u ∧
      (r.1 = true → size < 2 ^ 39 → va + (size - p) < 2 ^ 39 → ∀ x < size - p, ∃ pte, r.2.pte (va + x) = some pte ∧ pte.page ∈ s.freelist) := by
  induction left with
  | zero => exact fun _ => After.throw _
  | succ left ih =>
    intro t va p s fresh
    unfold allocPages
    split
    case isFalse ending =>
      apply After.pure
      refine ⟨fresh, PageTable.Grows.refl t s, ?_⟩
      intro _ _ _ x lt
      omega
    case isTrue more =>
    refine (kalloc_after s).bind ?_
    rintro _ s' (⟨rfl, -, same⟩ | ⟨page, rfl, list, -⟩)
    · apply After.pure
      have suffix : s'.freelist <:+ s.freelist := by rw [same]
      refine ⟨fresh.walk (fun _ => rfl) suffix, PageTable.Grows.walk (fun _ => rfl) suffix, ?_⟩
      intro never
      cases never
    · refine (pagemap_after t va page attr s').bind ?_
      intro t' u mapped
      obtain ⟨fresh', grows, pte, here, rfl⟩ := fresh.map list mapped
      refine (ih fresh').mono ?_
      rintro r v ⟨fresh'', grows', there⟩
      refine ⟨fresh'', grows.trans grows', ?_⟩
      intro done small low x lt
      have aligned := mapped.aligned
      rcases Nat.lt_or_ge x PAGESIZE with first | later
      · have page : vpn (va + x) = vpn va := by
          simp only [vpn, PAGESIZE] at *
          omega
        rw [r.2.pte_vpn page]
        exact ⟨pte, grows'.kept va pte here, by rw [list]; exact List.mem_cons_self⟩
      · simp only [PAGESIZE] at *
        have next : (va + 4096) % U64 = va + 4096 := Nat.mod_eq_of_lt (by simp only [U64]; omega)
        have next' : (p + 4096) % U64 = p + 4096 := Nat.mod_eq_of_lt (by simp only [U64]; omega)
        rw [next, next'] at there
        obtain ⟨pte', entry, free⟩ := there done small (by omega) (x - 4096) (by omega)
        rw [show va + 4096 + (x - 4096) = va + x by omega] at entry
        exact ⟨pte', entry, grows.suffix.subset free⟩

/-- `alloc_userspace`. -/
theorem allocUserspace_fresh (memsz : Nat) (fresh : t.Fresh s pool) :
    After (allocUserspace t va memsz) s fun r u => r.2.Fresh u pool ∧ t.Grows s r.2 u ∧
      (0 ≤ r.1 → va + memsz < 2 ^ 39 → ∀ x < memsz, ∃ pte, r.2.pte (va + x) = some pte ∧ pte.page ∈ s.freelist) := by
  unfold allocUserspace
  refine After.step (get_runs s) ?_
  refine (allocPages_fresh (PTE_NORMAL ||| PTE_U) memsz (s.free + 1) fresh).bind ?_
  rintro ⟨done, t'⟩ u ⟨fresh', grows, there⟩
  apply After.pure
  refine ⟨fresh', grows, ?_⟩
  intro nonneg low
  cases done with
  | false => exact absurd (show (0 : Int) ≤ -1 from nonneg) (by decide)
  | true => exact there rfl (by omega) (by omega)

/-- `map_ustack`. -/
theorem mapUstack_fresh (fresh : t.Fresh s pool) :
    After (mapUstack t) s fun r u => r.2.Fresh u pool ∧ t.Grows s r.2 u ∧
      (r.1 = true → ∃ pte, r.2.pte USTACKBOTTOM = some pte ∧ pte.page ∈ s.freelist) := by
  unfold mapUstack
  refine (kalloc_after s).bind ?_
  rintro _ s' (⟨rfl, -, same⟩ | ⟨page, rfl, list, -⟩)
  · apply After.pure
    have suffix : s'.freelist <:+ s.freelist := by rw [same]
    refine ⟨fresh.walk (fun _ => rfl) suffix, PageTable.Grows.walk (fun _ => rfl) suffix, ?_⟩
    intro never
    cases never
  · refine (pagemap_after t USTACKBOTTOM page _ s').bind ?_
    intro t' u mapped
    obtain ⟨fresh', grows, pte, here, rfl⟩ := fresh.map list mapped
    apply After.pure
    exact ⟨fresh', grows, fun _ => ⟨pte, here, by rw [list]; exact List.mem_cons_self⟩⟩

/-- `uva2pa` finds the page of an address, or 0. -/
theorem uva2pa_after (t : PageTable) (va : Nat) (s : Kallocator) :
    After (uva2pa t va) s fun r u => (∀ va, r.2.pte va = t.pte va) ∧ u.freelist <:+ s.freelist ∧
      (r.1 = va % PAGESIZE ∨ r.1 = 0 ∨ ∃ pte, t.pte va = some pte ∧ r.1 = pte.page * PAGESIZE + va % PAGESIZE) := by
  unfold uva2pa
  refine ((pagewalk_ends t va s).1.and (pagewalk_suffix t va s)).bind ?_
  rintro ⟨found, t'⟩ u ⟨walked, suffix⟩
  apply After.pure
  refine ⟨walked.pte, suffix, ?_⟩
  cases found with
  | false => exact .inr (.inl rfl)
  | true =>
    have same := walked.pte va
    dsimp only at same ⊢
    rw [if_pos rfl, same]
    cases entry : t.pte va with
    | none => exact .inl (Nat.zero_add _)
    | some pte => exact .inr (.inr ⟨pte, rfl, rfl⟩)

end Map

section Free
variable {pool : PageNo → Prop} {s : Kallocator}

/-- The pages a table consists of, and those it maps. -/
def PageTable.Uses (t : PageTable) : PageNo → Prop := t.Owns (Table.Owns (Table.Owns fun pte page => page = pte.page))

/-- The free pages and those of the table are from `pool`. -/
structure PageTable.Within (t : PageTable) (s : Kallocator) (pool : PageNo → Prop) : Prop where
  free : ∀ page ∈ s.freelist, pool page
  used : ∀ page, t.Uses page → pool page

/-- A page that is mapped is one of those. -/
theorem PageTable.uses_pte {t : PageTable} {va : Nat} {pte : Pte} (there : t.pte va = some pte) : t.Uses pte.page := by
  unfold PageTable.pte at there
  obtain ⟨l2, first, rest⟩ := Option.bind_eq_some_iff.1 there
  obtain ⟨l3, second, third⟩ := Option.bind_eq_some_iff.1 rest
  exact .inr ⟨_, l2, first, .inr ⟨_, l3, second, .inr ⟨_, pte, third, rfl⟩⟩⟩

theorem kfree_within {page : PageNo} (free : ∀ page ∈ s.freelist, pool page) (mine : pool page) :
    After (kfree page) s fun _ u => ∀ page ∈ u.freelist, pool page := by
  unfold kfree
  refine After.bind ((acquireKallocator_ends s).1) ?_
  rintro _ t rfl
  refine (After.iff_of_run (modify_runs ..)).2 ?_
  intro page' mem
  rcases List.mem_cons.1 mem with rfl | old
  · exact mine
  · exact free page' old

theorem nextTable_within {α : Type} {sub : α → PageNo → Prop} {t : Table (Fin 512) PageNo (Table (Fin 512) PageNo α)} (i : Fin 512)
    (free : ∀ page ∈ s.freelist, pool page) (used : ∀ page, t.Owns (Table.Owns sub) page → pool page) :
    After (nextTable t i) s fun next u => (∀ page ∈ u.freelist, pool page) ∧ ∀ l, next = some l → ∀ page, l.Owns sub page → pool page := by
  unfold nextTable
  cases entry : t.entry i with
  | some l =>
    apply After.pure
    refine ⟨free, ?_⟩
    intro _ same page mine
    cases same
    exact used page (.inr ⟨i, l, entry, mine⟩)
  | none =>
    refine (kalloc_after s).bind ?_
    rintro _ u (⟨rfl, -, same⟩ | ⟨new, rfl, list, -⟩)
    · apply After.pure
      refine ⟨by rw [same]; exact free, ?_⟩
      intro _ never
      cases never
    · apply After.pure
      rw [list] at free
      refine ⟨fun page mem => free page (List.mem_cons_of_mem _ mem), ?_⟩
      rintro _ ⟨⟩ page mine
      rw [Table.owns_empty.1 mine]
      exact free new List.mem_cons_self

theorem pagewalk_within {t : PageTable} (va : Nat) (h : t.Within s pool) : After (pagewalk t va) s fun r u => r.2.Within u pool := by
  unfold pagewalk
  refine (nextTable_within (PIDX 1 va) h.free h.used).bind ?_
  rintro (_ | l2) u ⟨free, used⟩
  · exact After.pure ⟨free, h.used⟩
  refine (nextTable_within (PIDX 2 va) free (used l2 rfl)).bind ?_
  rintro (_ | l3) v ⟨free', used'⟩
  · apply After.pure
    refine ⟨free', ?_⟩
    intro page mine
    rcases Table.owns_put mine with old | new
    · exact h.used page old
    · exact used l2 rfl page new
  · apply After.pure
    refine ⟨free', ?_⟩
    intro page mine
    rcases Table.owns_put mine with old | new
    · exact h.used page old
    · rcases Table.owns_put new with old | new
      · exact used l2 rfl page old
      · exact used' l3 rfl page new

theorem pagewalkDeref_within {t : PageTable} (va : Nat) (h : t.Within s pool) :
    After (pagewalkDeref t va) s fun t' u => t'.Within u pool := by
  unfold pagewalkDeref
  refine (pagewalk_within va h).bind ?_
  rintro ⟨found, t'⟩ u within
  cases found with
  | false => exact After.throw _
  | true => exact After.pure within

/-- Clearing an entry adds no page. -/
theorem PageTable.uses_setPte {t : PageTable} {va page : Nat} (mine : (t.setPte va none).Uses page) : t.Uses page := by
  rcases Table.owns_put mine with old | new
  · exact old
  · cases first : t.entry (PIDX 1 va) with
    | none =>
      rw [first] at new
      exact False.elim new
    | some l2 =>
      rw [first] at new
      refine .inr ⟨_, l2, first, ?_⟩
      rcases Table.owns_put (show Table.Owns _ (l2.put _ _) page from new) with old | new
      · exact old
      · cases second : l2.entry (PIDX 2 va) with
        | none =>
          rw [second] at new
          exact False.elim new
        | some l3 =>
          rw [second, Option.map_some, Option.elim_some] at new
          refine .inr ⟨_, l3, second, ?_⟩
          rcases Table.owns_put new with old | new
          · exact old
          · exact False.elim new

/-- The loop of `pageunmap`. -/
theorem unmapPages_within (left : Nat) : ∀ {t : PageTable} {va : Nat} {s : Kallocator}, t.Within s pool →
    After (unmapPages left t va) s fun t' u => t'.Within u pool := by
  induction left with
  | zero => exact fun h => After.pure h
  | succ left ih =>
    intro t va s h
    unfold unmapPages
    refine (pagewalkDeref_within va h).bind ?_
    intro t' u within
    cases entry : t'.pte va with
    | none => exact After.throw _
    | some pte =>
      refine (kfree_within within.free (within.used _ (PageTable.uses_pte entry))).bind ?_
      intro _ v free
      apply ih
      exact ⟨free, fun page mine => within.used page (PageTable.uses_setPte mine)⟩

theorem pageunmap_within {t : PageTable} (va size : Nat) (h : t.Within s pool) :
    After (pageunmap t va size) s fun t' u => t'.Within u pool := by
  unfold pageunmap
  split
  · exact After.throw _
  · exact unmapPages_within _ h

/-- `free_table`, level by level. -/
theorem freeTable_within {α : Type} {sub : α → MmM Unit} {owns : α → PageNo → Prop}
    (frees : ∀ x s, (∀ page ∈ s.freelist, pool page) → (∀ page, owns x page → pool page) → After (sub x) s fun _ u => ∀ page ∈ u.freelist, pool page)
    {t : Table (Fin 512) PageNo α} (free : ∀ page ∈ s.freelist, pool page) (used : ∀ page, t.Owns owns page → pool page) :
    After (freeTable sub t) s fun _ u => ∀ page ∈ u.freelist, pool page := by
  have each : ∀ (g : Fin 512 → MmM Unit), (∀ i s, (∀ page ∈ s.freelist, pool page) → After (g i) s fun _ u => ∀ page ∈ u.freelist, pool page) →
      ∀ (is : List (Fin 512)) (s : Kallocator), (∀ page ∈ s.freelist, pool page) →
        After (is.forM g) s fun _ u => ∀ page ∈ u.freelist, pool page := by
    intro g one is
    induction is with
    | nil => exact fun s free => After.pure free
    | cons i is ih =>
      intro s free
      rw [List.forM]
      exact (one i s free).bind fun _ u free => ih u free
  unfold freeTable
  refine (each _ ?_ (List.finRange 512) s free).bind ?_
  · intro i s free
    cases entry : t.entry i with
    | none => exact After.pure free
    | some x => exact frees x s free fun page mine => used page (.inr ⟨i, x, entry, mine⟩)
  · intro _ u free
    exact kfree_within free (used _ (.inl rfl))

/-- `free_userspace` frees pages of the table, and takes none but free ones. -/
theorem freeUserspace_within {t : PageTable} (size : Nat) (h : t.Within s pool) :
    After (freeUserspace t size) s fun _ u => ∀ page ∈ u.freelist, pool page := by
  unfold freeUserspace
  refine (pageunmap_within _ _ h).bind ?_
  intro t' u within
  refine (pageunmap_within _ _ within).bind ?_
  intro t'' v within
  refine freeTable_within ?_ within.free within.used
  intro l2 s free used
  refine freeTable_within ?_ free used
  intro l3 s free used
  refine freeTable_within ?_ free used
  exact fun _ _ free _ => After.pure free

end Free

end Aarch64Os.Kernel
