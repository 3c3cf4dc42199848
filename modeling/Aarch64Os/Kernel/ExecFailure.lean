import Aarch64Os.Kernel.ExecRight

/-!
# The pages behind an `exec` that fails (`kernel/proc.c`)

What fails goes to one label, which frees the page of the root table. The tables below it, the pages
of the segments and the stack page are not freed, so that the pages are only all free again where
none of these has been taken. The process is as it was in any case.
-/

namespace Aarch64Os.Kernel.Exec
set_option autoImplicit false
open Base

/-- The process is as it was, and so are the free pages. -/
structure Restored (s u : State) : Prop where
  proc : u.proc = s.proc
  ttbr0 : u.ttbr0 = s.ttbr0
  free : ∀ page, page ∈ u.kmem.freelist ↔ page ∈ s.kmem.freelist

/-- Behind headers for which no page is taken comes one that makes `exec` fail before it takes one. -/
def FailsFirst (read : Reader) : Nat → Nat → Prop
  | 0, _ => False
  | left + 1, off =>
    match readPhdr read off with
    | none => True
    | some ph =>
      if ph.p_type ≠ PT_LOAD then FailsFirst read left ((off + Segment.sizeof) % U64)
      else ph.p_memsz = 0 ∧ (ph.p_vaddr % PAGESIZE ≠ 0 ∨ ph.p_filesz = 0 ∧ FailsFirst read left ((off + Segment.sizeof) % U64))

/-- `exec` fails before it has a table, or at its headers with the root table only. -/
def StopsEarly (freelist : List PageNo) : Option Reader → Prop
  | none => True
  | some read =>
    match readEhdr read with
    | none => True
    | some eh => freelist = [] ∨ FailsFirst read eh.e_phnum eh.e_phoff

section Taken
variable {t : PageTable} {s : Kallocator} {page : PageNo}

/-- The loop that takes pages puts none back. -/
theorem allocPages_suffix (attr : BitVec 64) (size left : Nat) : ∀ (t : PageTable) (va p : Nat) (s : Kallocator),
    After (allocPages attr size left t va p) s fun _ u => u.freelist <:+ s.freelist := by
  induction left with
  | zero => exact fun _ _ _ _ => After.throw _
  | succ left ih =>
    intro t va p s
    unfold allocPages
    split
    · refine (kalloc_suffix s).bind ?_
      rintro (_ | page) u suffix
      · exact After.pure suffix
      · refine (pagemap_after t va page attr u).bind ?_
        intro t' v mapped
        refine (ih t' _ _ v).mono ?_
        intro _ w suffix'
        exact suffix'.trans (mapped.suffix.trans suffix)
    · exact After.pure (List.suffix_refl _)

/-- A page has been taken, and there were fewer behind it. -/
theorem free_lt {u v : Kallocator} (list : s.freelist = page :: u.freelist) (suffix : v.freelist <:+ u.freelist) : v.free < s.free := by
  unfold Kallocator.free
  rw [list, List.length_cons]
  exact Nat.lt_succ_of_le suffix.length_le

/-- `alloc_userspace` of nothing does nothing; otherwise it takes a page, unless none is free. -/
theorem allocUserspace_takes (t : PageTable) (va memsz : Nat) (s : Kallocator) : After (allocUserspace t va memsz) s fun r u =>
    memsz = 0 ∧ r = (0, t) ∧ u = s ∨ memsz ≠ 0 ∧ (r.1 < 0 ∧ u.held = true ∨ u.free < s.free) := by
  unfold allocUserspace
  refine After.step (get_runs s) ?_
  unfold allocPages
  split
  case isTrue some =>
    simp only [bind_assoc]
    refine (kalloc_after s).bind ?_
    rintro _ u (⟨rfl, held, -⟩ | ⟨page, rfl, list, -⟩)
    · exact After.pure (.inr ⟨by omega, .inl ⟨show (-1 : Int) < 0 by decide, held⟩⟩)
    · dsimp only
      rw [bind_assoc]
      refine (pagemap_after t va page _ u).bind ?_
      intro t' v mapped
      refine (allocPages_suffix _ _ _ t' _ _ v).bind ?_
      intro r w suffix
      exact After.pure (.inr ⟨by omega, .inr (free_lt list (suffix.trans mapped.suffix))⟩)
  case isFalse none =>
    obtain rfl : memsz = 0 := by omega
    exact After.pure (.inl ⟨rfl, rfl, rfl⟩)

/-- `map_ustack` takes a page. -/
theorem mapUstack_takes (t : PageTable) (s : Kallocator) : After (mapUstack t) s fun r u => r.1 = true → u.free < s.free := by
  unfold mapUstack
  refine (kalloc_after s).bind ?_
  rintro _ u (⟨rfl, -, -⟩ | ⟨page, rfl, list, -⟩)
  · apply After.pure
    intro never
    cases never
  · refine (pagemap_after t USTACKBOTTOM page _ u).bind ?_
    intro t' v mapped
    exact After.pure fun _ => free_lt list mapped.suffix

/-- `kfree` puts its page in front. -/
theorem kfree_puts (s : Kallocator) (page : PageNo) : After (kfree page) s fun _ u => u.freelist = page :: s.freelist ∧ s.held = false := by
  intro _ u run
  obtain ⟨free, -⟩ := kfree_after s page _ u run
  rw [kfree_free free] at run
  cases run
  exact ⟨rfl, free⟩

/-- `uva2pa` in a table without entries takes pages for two, unless they are not free. -/
theorem uva2pa_takes (va : Nat) (free : s.held = false) : After (uva2pa (Table.empty page) va) s fun r u =>
    r.1 = 0 ∧ u.held = true ∨ u.free < s.free := by
  unfold uva2pa
  refine ((pagewalk_ends (Table.empty page) va s).1.and (pagewalk_lock (Table.empty page) va free)).bind ?_
  rintro ⟨found, t⟩ u ⟨walked, lock⟩
  apply After.pure
  cases found with
  | false => exact .inl ⟨rfl, lock⟩
  | true =>
    have used := walked.used rfl
    have missing : PageTable.missing (Table.empty page) va = 2 := rfl
    exact .inr (by omega)

end Taken

section Early
variable {pool : PageNo → Prop} {read : Reader} {s : State} {page : PageNo}

/-- `load_prg` of bytes into a table without entries. -/
theorem loadPrg_takes {va srcoff filesz : Nat} (fresh : PageTable.Fresh (Table.empty page) s.kmem pool) (free : s.kmem.held = false)
    (aligned : va % PAGESIZE = 0) (some : filesz ≠ 0) : After (loadPrg (Table.empty page) va read srcoff filesz) s fun r u =>
    r.1 < 0 ∧ u.kmem.held = true ∨ u.kmem.free < s.kmem.free := by
  unfold loadPrg
  rw [if_neg (not_not.2 aligned)]
  unfold loadPages
  rw [if_pos (Nat.pos_of_ne_zero some)]
  refine (onPages_after ((uva2pa_takes ((va + 0) % U64) free).and (uva2pa_after (Table.empty page) ((va + 0) % U64) s.kmem))).bind ?_
  rintro ⟨pa, t⟩ u ⟨⟨takes, same, suffix, -⟩, -, -, -⟩
  dsimp only
  split
  case isTrue =>
    apply After.pure
    rcases takes with ⟨-, held⟩ | less
    · exact .inl ⟨show (-1 : Int) < 0 by decide, held⟩
    · exact .inr less
  case isFalse nonzero =>
  have less : u.kmem.free < s.kmem.free := takes.resolve_left fun failed => nonzero failed.1
  generalize (if filesz - 0 < PAGESIZE then filesz - 0 else PAGESIZE) = cpsz
  refine After.step (memcpy_runs ..) ?_
  split
  case isTrue =>
    apply After.pure
    exact .inr less
  case isFalse =>
  have fresh' : t.Fresh { u with mem := u.mem.store pa (read ((srcoff + 0) % U64) cpsz).2 }.kmem pool := fresh.walk same suffix
  have whole : (0 + PAGESIZE) % U64 % PAGESIZE = 0 := by decide
  refine (loadPages_after _ fresh' aligned whole).mono ?_
  rintro r v ⟨keeps, -⟩
  exact .inr (lt_of_le_of_lt keeps.grows.suffix.length_le less)

/-- The loop over the headers from the root table on: where it fails, either no page has been taken,
or the list is shorter, or there was no page. -/
theorem execHeaders_early (left : Nat) : ∀ {off memsize : Nat} {s : State}, PageTable.Fresh (Table.empty page) s.kmem pool →
    s.kmem.held = false → After (execHeaders read left off (Table.empty page) memsize) s fun r u =>
      (r.1 ≠ none → ¬ FailsFirst read left off) ∧
      (r.1 = none → u.kmem.held = true ∨ (FailsFirst read left off ∧ r.2.name = page ∧ u.kmem.freelist = s.kmem.freelist) ∨
        (¬ FailsFirst read left off ∧ u.kmem.free < s.kmem.free)) := by
  induction left with
  | zero =>
    intro off memsize s _ _
    apply After.pure
    refine ⟨fun _ => id, ?_⟩
    intro never
    cases never
  | succ left ih =>
    intro off memsize s fresh free
    unfold execHeaders FailsFirst
    cases header : readPhdr read off with
    | none => exact After.pure ⟨fun never => absurd rfl never, fun _ => .inr (.inl ⟨trivial, rfl, rfl⟩)⟩
    | some ph =>
    dsimp only
    split
    case isTrue other => exact ih fresh free
    case isFalse load =>
    refine (onPages_after ((allocUserspace_takes (Table.empty page) ph.p_vaddr ph.p_memsz s.kmem).and
      (allocUserspace_fresh ph.p_memsz fresh))).bind ?_
    rintro ⟨sz, t⟩ u ⟨⟨⟨zero, same, unchanged⟩ | ⟨nonzero, takes⟩, fresh', -⟩, -, -, -⟩
    · -- nothing is allocated, so that only reading bytes of the segment can take a page
      cases same
      rw [if_neg (lt_irrefl 0)]
      by_cases aligned : ph.p_vaddr % PAGESIZE = 0
      case neg =>
        unfold loadPrg
        rw [if_pos aligned, pure_bind]
        refine After.pure ⟨fun never => absurd rfl never, fun _ => .inr (.inl ⟨⟨zero, .inl aligned⟩, rfl, ?_⟩)⟩
        rw [unchanged]
      case pos =>
      by_cases none : ph.p_filesz = 0
      case pos =>
        have nothing : loadPrg (Table.empty page) ph.p_vaddr read ph.p_offset ph.p_filesz = pure (0, Table.empty page) := by
          unfold loadPrg loadPages
          rw [if_neg (not_not.2 aligned), none, if_neg (lt_irrefl 0)]
        rw [nothing, pure_bind, if_neg (lt_irrefl 0)]
        have rest : (ph.p_memsz = 0 ∧ (ph.p_vaddr % PAGESIZE ≠ 0 ∨ ph.p_filesz = 0 ∧ FailsFirst read left ((off + Segment.sizeof) % U64))) ↔
            FailsFirst read left ((off + Segment.sizeof) % U64) := by
          simp only [zero, aligned, none, ne_eq, not_true_eq_false, false_or, true_and]
        simp only [rest]
        rw [← unchanged]
        exact ih fresh' (by rw [unchanged]; exact free)
      case neg =>
      have stays : ¬ (ph.p_memsz = 0 ∧ (ph.p_vaddr % PAGESIZE ≠ 0 ∨ ph.p_filesz = 0 ∧ FailsFirst read left ((off + Segment.sizeof) % U64))) := by
        rintro ⟨-, unaligned | ⟨zero, -⟩⟩
        · exact unaligned aligned
        · exact none zero
      rw [← unchanged] at free ⊢
      refine ((loadPrg_takes fresh' free aligned none).and (loadPrg_after fresh')).bind ?_
      rintro ⟨r, t'⟩ v ⟨takes, keeps, -⟩
      dsimp only
      split
      case isTrue =>
        apply After.pure
        refine ⟨fun never => absurd rfl never, fun _ => ?_⟩
        rcases takes with ⟨-, held⟩ | less
        · exact .inl held
        · exact .inr (.inr ⟨stays, less⟩)
      case isFalse done =>
      have less : v.kmem.free < u.kmem.free := takes.resolve_left fun failed => done failed.1
      refine (execHeaders_after left keeps.fresh).mono ?_
      rintro e w ⟨keeps', -⟩
      exact ⟨fun _ => stays, fun _ => .inr (.inr ⟨stays, lt_of_le_of_lt keeps'.grows.suffix.length_le less⟩)⟩
    · have stays : ¬ (ph.p_memsz = 0 ∧ (ph.p_vaddr % PAGESIZE ≠ 0 ∨ ph.p_filesz = 0 ∧ FailsFirst read left ((off + Segment.sizeof) % U64))) :=
        fun zero => nonzero zero.1
      dsimp only
      split
      case isTrue =>
        apply After.pure
        refine ⟨fun never => absurd rfl never, fun _ => ?_⟩
        rcases takes with ⟨-, held⟩ | less
        · exact .inl held
        · exact .inr (.inr ⟨stays, less⟩)
      case isFalse done =>
      have less : u.kmem.free < s.kmem.free := takes.resolve_left fun failed => done failed.1
      refine (loadPrg_after fresh').bind ?_
      rintro ⟨r, t'⟩ v ⟨keeps, -⟩
      have less : v.kmem.free < s.kmem.free := lt_of_le_of_lt keeps.grows.suffix.length_le less
      dsimp only
      split
      case isTrue => exact After.pure ⟨fun never => absurd rfl never, fun _ => .inr (.inr ⟨stays, less⟩)⟩
      case isFalse =>
      refine (execHeaders_after left keeps.fresh).mono ?_
      rintro e w ⟨keeps', -⟩
      exact ⟨fun _ => stays, fun _ => .inr (.inr ⟨stays, lt_of_le_of_lt keeps'.grows.suffix.length_le less⟩)⟩

/-- Up to the stack: where this is mapped, the list is shorter. -/
theorem execMap_early {eh : Ehdr} (fresh : PageTable.Fresh (Table.empty page) s.kmem pool) (free : s.kmem.held = false) :
    After (execMap read eh page) s fun r u =>
      (r.1 ≠ none → ¬ FailsFirst read eh.e_phnum eh.e_phoff ∧ u.kmem.free < s.kmem.free) ∧
      (r.1 = none → u.kmem.held = true ∨
        (FailsFirst read eh.e_phnum eh.e_phoff ∧ r.2.name = page ∧ u.kmem.freelist = s.kmem.freelist) ∨
        (¬ FailsFirst read eh.e_phnum eh.e_phoff ∧ u.kmem.free < s.kmem.free)) := by
  unfold execMap
  refine ((execHeaders_early eh.e_phnum fresh free).and (execHeaders_after eh.e_phnum fresh)).bind ?_
  rintro ⟨loaded, t⟩ u ⟨⟨goes, fails⟩, keeps, -⟩
  cases loaded with
  | none => exact After.pure ⟨fun never => absurd rfl never, fun _ => fails rfl⟩
  | some memsize =>
  refine (onPages_after (mapUstack_takes t u.kmem)).bind ?_
  rintro ⟨mapped, t'⟩ v ⟨less, -, -, -⟩
  dsimp only at less ⊢
  split
  case h_1 => exact After.throw _
  case h_2 stack there =>
    cases mapped with
    | false => cases there
    | true =>
      apply After.pure
      refine ⟨fun _ => ⟨goes (Option.some_ne_none _), lt_of_lt_of_le (less rfl) keeps.grows.suffix.length_le⟩, ?_⟩
      intro never
      cases never

/-- Where `exec` fails, the page it frees is the only one that has been taken, or the list is shorter
by more than this one, or there was no page. -/
theorem execBuild_fails (ready : Ready s) (file : Option Reader) (args : Option (List CStr)) :
    After (execBuild file args) s fun r u =>
      (r = .error none → StopsEarly s.kmem.freelist file ∧ u.kmem.freelist = s.kmem.freelist) ∧
      ∀ name, r = .error (some name) → u.kmem.held = true ∨
        (StopsEarly s.kmem.freelist file ∧ s.kmem.freelist = name :: u.kmem.freelist) ∨
        (¬ StopsEarly s.kmem.freelist file ∧ u.kmem.free + 1 < s.kmem.free) := by
  have only : ∀ {u : State}, StopsEarly s.kmem.freelist file → u.kmem.freelist = s.kmem.freelist →
      ((Except.error none : Except (Option PageNo) Built) = .error none → StopsEarly s.kmem.freelist file ∧ u.kmem.freelist = s.kmem.freelist) ∧
      ∀ name, (Except.error none : Except (Option PageNo) Built) = .error (some name) → u.kmem.held = true ∨
        (StopsEarly s.kmem.freelist file ∧ s.kmem.freelist = name :: u.kmem.freelist) ∨
        (¬ StopsEarly s.kmem.freelist file ∧ u.kmem.free + 1 < s.kmem.free) := by
    intro u early same
    refine ⟨fun _ => ⟨early, same⟩, ?_⟩
    intro _ never
    cases never
  unfold execBuild
  cases file with
  | none => exact After.pure (only trivial rfl)
  | some read =>
  dsimp only
  cases header : readEhdr read with
  | none => exact After.pure (only (by rw [StopsEarly, header]; trivial) rfl)
  | some eh =>
  have early : StopsEarly s.kmem.freelist (some read) ↔ s.kmem.freelist = [] ∨ FailsFirst read eh.e_phnum eh.e_phoff := by
    rw [StopsEarly, header]
  refine (onPages_after (((kalloc_after s.kmem).and (kalloc_lock s.kmem)).and (kalloc_ends s.kmem).1)).bind ?_
  rintro _ u ⟨⟨⟨⟨rfl, -, same⟩ | ⟨page, rfl, list, -⟩, lock⟩, -, none⟩, -, -, -⟩
  · exact After.pure (only (early.2 (.inl (List.length_eq_zero_iff.1 (none.1 rfl)))) same)
  have more : s.kmem.freelist ≠ [] := by
    rw [list]
    exact List.cons_ne_nil _ _
  have count : s.kmem.free = u.kmem.free + 1 := congrArg List.length list
  have fresh : PageTable.Fresh (Table.empty page) u.kmem (Pool s) := by
    have suffix : u.kmem.freelist <:+ s.kmem.freelist := by
      rw [list]
      exact List.suffix_cons ..
    exact fresh_empty ready.ram (ready.nodup.sublist suffix.sublist) fun _ mem => suffix.subset mem
  refine ((execMap_early fresh lock).and (execMap_after fresh header)).bind ?_
  rintro ⟨mapped, t⟩ v ⟨⟨goes, fails⟩, -, -, rest⟩
  cases mapped with
  | none =>
    apply After.pure
    constructor
    · intro never
      cases never
    · intro name same
      cases same
      rcases fails rfl with held | ⟨first, rfl, same⟩ | ⟨later, less⟩
      · exact .inl held
      · rw [list, same]
        exact .inr (.inl ⟨by rw [← list]; exact early.2 (.inr first), rfl⟩)
      · exact .inr (.inr ⟨fun stops => later ((early.1 stops).resolve_left more), by omega⟩)
  | some mapped =>
  obtain ⟨memsize, stack⟩ := mapped
  obtain ⟨later, less⟩ := goes (Option.some_ne_none _)
  obtain ⟨-, -, zero, -⟩ := rest memsize stack rfl
  obtain ⟨r, m, pushed, -⟩ := pushArgs_runs (args.getD []) zero
  refine After.step pushed ?_
  cases r with
  | none =>
    apply After.pure
    constructor
    · intro never
      cases never
    · intro name same
      cases same
      exact .inr (.inr ⟨fun stops => later ((early.1 stops).resolve_left more), by
        show v.kmem.free + 1 < s.kmem.free
        omega⟩)
  | some r =>
    apply After.pure
    constructor
    · intro never
      cases never
    · intro name never
      cases never

/-- A shorter list does not have all the pages of a longer one that has each once. -/
theorem not_same_pages {l l' : List PageNo} (nodup : l.Nodup) (less : l'.length < l.length) : ¬ ∀ page, page ∈ l' ↔ page ∈ l := by
  intro same
  have le := (List.subperm_of_subset nodup fun page mem => (same page).2 mem).length_le
  omega

/-- An `exec` that fails leaves the free pages as they were exactly when it stops before it takes
another page than the one for the root table. The process is always as it was. -/
theorem exec_restores_iff {file : Option Reader} {args : Option (List CStr)} {u : State} (ready : Ready s)
    (run : exec file args s = .ok (-1, u)) : (u.proc = s.proc ∧ u.ttbr0 = s.ttbr0) ∧ (Restored s u ↔ StopsEarly s.kmem.freelist file) := by
  have kept : u.proc = s.proc ∧ u.ttbr0 = s.ttbr0 := by
    rcases exec_after ready file args _ u run with ⟨-, proc, ttbr0⟩ | ⟨-, argc, -, never, -⟩
    · exact ⟨proc, ttbr0⟩
    · omega
  refine ⟨kept, ?_⟩
  have restored : Restored s u ↔ ∀ page, page ∈ u.kmem.freelist ↔ page ∈ s.kmem.freelist :=
    ⟨Restored.free, fun free => ⟨kept.1, kept.2, free⟩⟩
  rw [restored]
  unfold exec at run
  obtain ⟨r, v, build, run⟩ := run_bind.1 run
  obtain ⟨nothing, fails⟩ := execBuild_fails ready file args r v build
  cases r with
  | ok new =>
    obtain ⟨proc, -, -, built⟩ := execBuild_after ready file args _ v build
    obtain ⟨fresh, -⟩ := built new rfl
    obtain ⟨never, -⟩ := execCommit_after fresh (by rw [proc]; exact ready.apart) _ u run
    omega
  | error name =>
  cases name with
  | none =>
    cases run
    obtain ⟨early, same⟩ := nothing rfl
    rw [same]
    exact iff_of_true (fun _ => Iff.rfl) early
  | some name =>
    obtain ⟨_, w, freed, run⟩ := run_bind.1 run
    cases run
    obtain ⟨⟨list, free⟩, -⟩ := onPages_after (kfree_puts v.kmem name) _ _ freed
    rcases fails name rfl with held | ⟨early, same⟩ | ⟨later, less⟩
    · rw [held] at free
      cases free
    · rw [list, same]
      exact iff_of_true (fun _ => Iff.rfl) (by rw [← same]; exact early)
    · refine iff_of_false (not_same_pages ready.nodup ?_) later
      rw [list]
      exact less

end Early

/-- An executable whose only program header is missing. -/
theorem exec_restores_iff_cut : ∃ u, exec (some (readerOf (elfOf 1 []))) none smallProcess = .ok (-1, u) ∧ Restored smallProcess u := by
  have ran : ((exec (some (readerOf (elfOf 1 []))) none smallProcess).toOption.any fun r => r.1 = -1) = true := by decide +kernel
  obtain ⟨r, u, run, fails⟩ := ok_of_any ran
  obtain rfl : r = -1 := of_decide_eq_true fails
  refine ⟨u, run, (exec_restores_iff smallProcess_ready run).2.2 ?_⟩
  have ehdr : (readEhdr (readerOf (elfOf 1 []))).any (fun eh => eh.e_phnum = 1 ∧ eh.e_phoff = 64) = true := by decide +kernel
  have phdr : (readPhdr (readerOf (elfOf 1 [])) 64).isNone = true := by decide +kernel
  obtain ⟨eh, header, place⟩ := (Option.any_eq_true _ _).1 ehdr
  obtain ⟨one, off⟩ := of_decide_eq_true place
  unfold StopsEarly
  dsimp only
  rw [header]
  right
  rw [one, off, FailsFirst, Option.isNone_iff_eq_none.1 phdr]
  trivial

/-- With nine strings the pages of the stack and the tables are lost. -/
theorem exec_loses_pages : Ready smallProcess ∧ ∃ u, exec (some (readerOf (elfOf 0 []))) (some nineStrings) smallProcess = .ok (-1, u) ∧
    u.kmem.free + 3 = smallProcess.kmem.free ∧ ¬ Restored smallProcess u := by
  refine ⟨smallProcess_ready, ?_⟩
  have ran : ((exec (some (readerOf (elfOf 0 []))) (some nineStrings) smallProcess).toOption.any fun r =>
      r.1 = -1 ∧ r.2.kmem.free = 9 ∧ 270001 ∉ r.2.kmem.freelist) = true := by decide +kernel
  obtain ⟨r, u, run, after⟩ := ok_of_any ran
  obtain ⟨rfl, nine, lost⟩ := of_decide_eq_true after
  refine ⟨u, run, ?_, ?_⟩
  · rw [nine]
    rfl
  · intro restored
    exact lost ((restored.free 270001).2 (by decide))

end Aarch64Os.Kernel.Exec
