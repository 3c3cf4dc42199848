import Aarch64Os.Kernel.FileTable
import Aarch64Os.Kernel.Mm.PageNames

/-!
# `fork` and `clone` without memory (`kernel/proc.c`)

`fork` and `clone` take a slot, a stack page, a page for the new table and, in `fork`, the tables
and pages of a copy, from the allocator one at a time. Only `fork` has something to undo, and
`kalloc` leaves its lock held when it fails, so that the `kfree` which is to undo it does not
return. Where a call does return -1 is `newproc`, and there nothing is undone.

The memory is what `kallocator` and the page tables say of it; a table is found by its page.
-/

namespace Aarch64Os.Kernel.Forking
set_option autoImplicit false
open Base

/-- `kallocator`, the page tables, and what the descriptor calls work on. -/
structure Machine where
  kmem : Kallocator
  tables : PageNo → Option PageTable
  files : Files

/-- A kernel function over all of them. -/
abbrev ForkM := StateT Machine (Except Fault)

/-- A function of `mm.c` or `kalloc.c` is called. -/
def onKmem {α : Type} (f : MmM α) : ForkM α := fun s => (f s.kmem).map fun r => (r.1, { s with kmem := r.2 })

/-- Change a slot. -/
def setProc (p : ProcId) (f : Proc → Proc) : ForkM Unit :=
  modify fun s => { s with files := { s.files with procs := s.files.procs.set p f } }

/-- Change a table. -/
def setTable (page : PageNo) (t : PageTable) : ForkM Unit :=
  modify fun s => { s with tables := Function.update s.tables page (some t) }

/-- `p->pgt` and the table there, used without a check. -/
def tableOf (p : ProcId) : ForkM (PageNo × PageTable) := do
  let s ← get
  match (s.files.procs p).pgt with
  | none => throw .undefined
  | some page =>
    match s.tables page with
    | none => throw .undefined
    | some t => pure (page, t)

/-- `newpid`. -/
def newpid : ForkM Int := do
  let s ← get
  set { s with files := { s.files with pid := s.files.pid + 1 } }
  pure s.files.pid

/-- `newproc`. -/
def newproc : ForkM (Option ProcId) := do
  let s ← get
  match s.files.procs.claim with
  | none => pure none
  | some (p, procs) =>
    set { s with files := { s.files with procs := procs } }
    let pid ← newpid
    setProc p fun q => { q with pid := pid }
    let kstack ← onKmem kalloc
    setProc p fun q => { q with kstack := kstack }
    if kstack.isNone then pure none
    else
      let pgt ← onKmem kalloc
      setProc p fun q => { q with pgt := pgt }
      match pgt with
      | none => pure none
      | some page =>
        setTable page (Table.empty page)
        pure (some p)

/-- `freeproc`. -/
def freeproc (p : ProcId) : ForkM Unit := do
  let s ← get
  match (s.files.procs p).kstack with
  | none => pure ()
  | some page => onKmem (kfree page)
  setProc p fun _ => Proc.zero

/-- The loop of `fork` and `clone` over the descriptors. -/
def inherit (p new : ProcId) : ForkM Unit := modify fun s => { s with files := s.files.inherit p new }

/-- `fork`. -/
def fork (p : ProcId) : ForkM Int := do
  match ← newproc with
  | none => pure (-1)
  | some new =>
    let s ← get
    let (old, oldpgt) ← tableOf p
    let (page, newpgt) ← tableOf new
    let (r, newpgt, oldpgt) ← onKmem (cpUserspace newpgt oldpgt 0x1000 (s.files.procs p).size)
    setTable old oldpgt
    setTable page newpgt
    if r < 0 then
      freeproc new
      pure (-1)
    else
      setProc new fun q => { q with size := (s.files.procs p).size, cwd := (s.files.procs p).cwd }
      inherit p new
      setProc new fun q => { q with state := .RUNNABLE, parent := some p }
      let s ← get
      pure (s.files.procs new).pid

/-- `clone`. -/
def clone (p : ProcId) : ForkM Int := do
  match ← newproc with
  | none => pure (-1)
  | some new =>
    let s ← get
    setProc new fun q => { q with pgt := (s.files.procs p).pgt, size := (s.files.procs p).size, cwd := (s.files.procs p).cwd }
    inherit p new
    setProc new fun q => { q with state := .RUNNABLE, parent := some p, th := true }
    let s ← get
    pure (s.files.procs new).pid

/-- The process table, the counts of the files and the free pages are as they were. -/
structure Same (s t : Machine) : Prop where
  procs : t.files.procs = s.files.procs
  refs : ∀ f, (t.files.files f).ref = (s.files.files f).ref
  pages : ∀ page, page ∈ t.kmem.freelist ↔ page ∈ s.kmem.freelist

/-- A call that returns -1 has changed none of them. -/
def Undoes (f : ForkM Int) (s : Machine) : Prop := After f s fun r t => r = -1 → Same s t

/-- There is no slot to take, or there are the two pages that `newproc` takes; or no page can be
taken any more. -/
def Room (s : Machine) : Prop :=
  (∀ q, (s.files.procs q).state ≠ .UNUSED) ∨ 2 ≤ s.kmem.free ∨ s.kmem.held = true

variable {s t : Machine} {p new slot : ProcId} {procs : Procs}

section Parts
variable {α : Type} {f : MmM α} {post : α → Kallocator → Prop}

theorem onKmem_after (after : After f s.kmem post) : After (onKmem f) s fun a t => post a t.kmem ∧ t.files = s.files := by
  intro a t run
  unfold onKmem at run
  cases inner : f s.kmem with
  | error e =>
    rw [inner] at run
    cases run
  | ok r =>
    rw [inner] at run
    cases run
    exact ⟨after r.1 r.2 inner, rfl⟩

theorem onKmem_returns (returns : Returns f s.kmem post) : Returns (onKmem f) s fun a t => post a t.kmem ∧ t.files = s.files := by
  obtain ⟨a, kmem, run, here⟩ := returns
  refine ⟨a, { s with kmem := kmem }, ?_, here, rfl⟩
  rw [onKmem, run]
  rfl

theorem onKmem_fails {e : Fault} (fails : f s.kmem = .error e) : onKmem f s = .error e := by
  rw [onKmem, fails]
  rfl

theorem setProc_returns (p : ProcId) (g : Proc → Proc) (s : Machine) : Returns (setProc p g) s fun _ t =>
    t.kmem = s.kmem ∧ t.files = { s.files with procs := s.files.procs.set p g } := ⟨_, _, rfl, rfl, rfl⟩

theorem setTable_returns (page : PageNo) (table : PageTable) (s : Machine) : Returns (setTable page table) s fun _ t =>
    t.kmem = s.kmem ∧ t.files = s.files := ⟨_, _, rfl, rfl, rfl⟩

theorem newpid_returns (s : Machine) : Returns newpid s fun pid t =>
    pid = s.files.pid ∧ t.kmem = s.kmem ∧ t.files = { s.files with pid := s.files.pid + 1 } := ⟨_, _, rfl, rfl, rfl, rfl⟩

theorem onKmem_files (f : MmM α) (s : Machine) : After (onKmem f) s fun _ t => t.files = s.files :=
  (onKmem_after (fun _ _ _ => trivial : After f s.kmem fun _ _ => True)).mono fun _ _ after => after.2

theorem tableOf_after (p : ProcId) (s : Machine) : After (tableOf p) s fun _ t => t = s := by
  unfold tableOf
  refine After.step (get_runs s) ?_
  split
  · exact After.throw _
  · split
    · exact After.throw _
    · exact After.pure rfl

end Parts

/-- `kalloc` takes a page and releases the lock, or there was none. -/
theorem kalloc_takes {s : Kallocator} (unlocked : s.held = false) : Returns kalloc s fun page u =>
    (page = none ∧ s.free = 0) ∨ ∃ new, page = some new ∧ u.free + 1 = s.free ∧ u.held = false := by
  refine ((kalloc_returns unlocked).and_after ((kalloc_lock s).and (kalloc_ends s).1)).mono ?_
  intro page u after
  obtain ⟨-, lock, taken, full⟩ := after
  cases page with
  | none => exact .inl ⟨rfl, full.1 rfl⟩
  | some new => exact .inr ⟨new, rfl, taken, lock⟩

theorem claim_none (full : procs.claim = none) (q : ProcId) : (procs q).state ≠ .UNUSED := by
  intro unused
  have missing := List.find?_eq_none.1 (Option.map_eq_none_iff.1 full) q (List.mem_finRange q)
  exact missing (decide_eq_true unused)

/-- `newproc` with all slots in use. -/
theorem newproc_full (full : s.files.procs.claim = none) : newproc s = .ok (none, s) := by
  unfold newproc
  rw [bind_runs (get_runs s), full]
  rfl

/-- `newproc` behind a `kalloc` that has failed. -/
theorem newproc_held (found : s.files.procs.claim = some (slot, procs)) (held : s.kmem.held = true) :
    newproc s = .error (.panic "already held") := by
  unfold newproc
  rw [bind_runs (get_runs s), found]
  obtain ⟨pid, t, run, -, kmem, -⟩ := newpid_returns { s with files := { s.files with procs := procs } }
  obtain ⟨_, u, run', kmem', -⟩ := setProc_returns slot (fun q => { q with pid := pid }) t
  refine (bind_runs (set_runs ..)).trans ((bind_runs run).trans ((bind_runs run').trans ?_))
  refine fail_bind.2 (.inl (onKmem_fails (kalloc_held ?_)))
  rw [kmem', kmem, held]

/-- `newproc` with a slot to take: the slot is lost when there is no page for its stack or its
table, and has both when there are. -/
theorem newproc_takes (found : s.files.procs.claim = some (slot, procs)) (unlocked : s.kmem.held = false) :
    Returns newproc s fun new t =>
      (new = none ∧ s.kmem.free < 2 ∧ (t.files.procs slot).state = .CREATED) ∨
      (new = some slot ∧ 2 ≤ s.kmem.free ∧ (t.files.procs slot).kstack.isSome ∧ (t.files.procs slot).pid = s.files.pid) := by
  unfold newproc
  refine Returns.step (get_runs s) ?_
  rw [found]
  obtain ⟨-, rfl⟩ := Procs.claim_some found
  refine Returns.step (set_runs ..) ((newpid_returns _).bind fun pid t ⟨given, kmem, procs⟩ => ?_)
  refine (setProc_returns _ _ _).bind fun _ t₁ ⟨kmem₁, procs₁⟩ => ?_
  have kmem₁ : t₁.kmem = s.kmem := kmem₁.trans kmem
  refine (onKmem_returns (kalloc_takes (by rw [kmem₁, unlocked]))).bind fun kstack t₂ ⟨stack, files₂⟩ => ?_
  refine (setProc_returns _ _ _).bind fun _ t₃ ⟨kmem₃, procs₃⟩ => ?_
  rw [files₂, procs₁, procs] at procs₃
  rw [kmem₁] at stack
  rcases stack with ⟨rfl, empty⟩ | ⟨stackpage, rfl, left, unlocked₂⟩
  · refine Returns.pure (.inl ⟨rfl, ?_, ?_⟩)
    · rw [empty]
      decide
    · simp only [procs₃, Procs.set_self]
  · refine (onKmem_returns (kalloc_takes (by rw [kmem₃, unlocked₂]))).bind fun pgt t₄ ⟨table, files₄⟩ => ?_
    refine (setProc_returns _ _ _).bind fun _ t₅ ⟨_, procs₅⟩ => ?_
    rw [files₄, procs₃] at procs₅
    rw [kmem₃] at table
    rcases table with ⟨rfl, empty⟩ | ⟨page, rfl, left', -⟩
    · refine Returns.pure (.inl ⟨rfl, ?_, ?_⟩)
      · rw [← left, empty]
        decide
      · simp only [procs₅, Procs.set_self]
    · refine (setTable_returns _ _ _).bind fun _ t₆ ⟨_, files₆⟩ => ?_
      refine Returns.pure (.inr ⟨rfl, by omega, ?_, ?_⟩)
      · simp only [files₆, procs₅, Procs.set_self, Option.isSome_some]
      · simp only [files₆, procs₅, Procs.set_self, given]

/-- A slot that was free is not as it was. -/
theorem not_same (found : s.files.procs.claim = some (slot, procs)) (created : (t.files.procs slot).state = .CREATED) : ¬ Same s t := by
  intro same
  have unused := (Procs.claim_some found).1
  rw [← same.procs, created] at unused
  cases unused

/-- What `fork` and `clone` do behind `newproc` does not matter, where it does not return -1. -/
theorem undoes_iff {body : ProcId → ForkM Int} (pids : 0 ≤ s.files.pid)
    (good : ∀ {new t}, (t.files.procs new).kstack.isSome → 0 ≤ (t.files.procs new).pid → After (body new) t fun r _ => r ≠ -1) :
    Undoes (newproc >>= fun new => match new with | none => pure (-1) | some new => body new) s ↔ Room s := by
  cases found : s.files.procs.claim with
  | none =>
    have unchanged : After (newproc >>= fun new => match new with | none => pure (-1) | some new => body new) s fun _ t => t = s :=
      After.step (newproc_full found) (After.pure rfl)
    refine iff_of_true (unchanged.mono fun _ t same _ => ?_) (.inl (claim_none found))
    rw [same]
    exact ⟨rfl, fun _ => rfl, fun _ => Iff.rfl⟩
  | some claimed =>
    obtain ⟨slot, procs⟩ := claimed
    cases held : s.kmem.held with
    | true =>
      refine iff_of_true (fun r t run => ?_) (.inr (.inr held))
      rw [fail_bind.2 (.inl (newproc_held found held))] at run
      cases run
    | false =>
      obtain ⟨new, t, run, lost | taken⟩ := newproc_takes found held
      · obtain ⟨rfl, few, created⟩ := lost
        refine iff_of_false (fun undoes => ?_) ?_
        · exact not_same found created (undoes (-1) t (bind_runs run) rfl)
        · rintro (full | pages | locked)
          · exact full slot (Procs.claim_some found).1
          · omega
          · exact Bool.noConfusion (held.symm.trans locked)
      · obtain ⟨rfl, pages, stack, pid⟩ := taken
        refine iff_of_true (After.step run ?_) (.inr (.inl pages))
        exact (good stack (by rw [pid]; exact pids)).mono fun r _ ne minus => absurd minus ne

/-- The loop over the descriptors moves no pid. -/
theorem inherit_pid (s : Files) (p new q : ProcId) : ((s.inherit p new).procs q).pid = (s.procs q).pid := by
  have round : ∀ (s : Files) (fd : Fd), ((Files.inheritFd p new s fd).procs q).pid = (s.procs q).pid := by
    intro s fd
    unfold Files.inheritFd
    split
    · rfl
    · dsimp only
      rw [Procs.set_apply]
      split
      case isTrue same => rw [same]; rfl
      case isFalse => rfl
  unfold Files.inherit
  induction List.finRange NOFILE generalizing s with
  | nil => rfl
  | cons fd fds ih => exact (ih _).trans (round s fd)

/-- Both calls prepare the new slot, copy the descriptors and publish it. -/
def published (s : Files) (p new : ProcId) (prepare ready : Proc → Proc) : Files :=
  let s := { s with procs := s.procs.set new prepare }
  let s := s.inherit p new
  { s with procs := s.procs.set new ready }

section Publish
variable {prepare ready : Proc → Proc}

theorem publish_runs : (do
      setProc new prepare
      inherit p new
      setProc new ready
      let s ← get
      pure (s.files.procs new).pid : ForkM Int) s =
    .ok (((published s.files p new prepare ready).procs new).pid, { s with files := published s.files p new prepare ready }) := rfl

theorem published_pid (s : Files) (prepared : ∀ q, (prepare q).pid = q.pid) (done : ∀ q, (ready q).pid = q.pid) :
    ((published s p new prepare ready).procs new).pid = (s.procs new).pid := by
  unfold published
  dsimp only
  rw [Procs.set_self, done, inherit_pid]
  dsimp only
  rw [Procs.set_self, prepared]

/-- They return the pid of the new process. -/
theorem publish_pid (nonneg : 0 ≤ (s.files.procs new).pid) (prepared : ∀ q, (prepare q).pid = q.pid)
    (done : ∀ q, (ready q).pid = q.pid) : After (do
      setProc new prepare
      inherit p new
      setProc new ready
      let s ← get
      pure (s.files.procs new).pid : ForkM Int) s fun r _ => r ≠ -1 := by
  refine (After.iff_of_run publish_runs).2 ?_
  rw [published_pid s.files prepared done]
  omega

end Publish

/-- A slot with a stack is not emptied behind a `kalloc` that has failed. -/
theorem freeproc_held (stack : (s.files.procs new).kstack.isSome) (held : s.kmem.held = true) :
    freeproc new s = .error (.panic "already held") := by
  obtain ⟨page, given⟩ := Option.isSome_iff_exists.1 stack
  unfold freeproc
  rw [bind_runs (get_runs s), given]
  exact fail_bind.2 (.inl (onKmem_fails (kfree_held held)))

theorem freeproc_files (p : ProcId) (s : Machine) :
    After (freeproc p) s fun _ t => t.files = { s.files with procs := s.files.procs.freeproc p } := by
  unfold freeproc
  refine After.step (get_runs s) ?_
  split
  · exact (setProc_returns _ _ _).after.mono fun _ _ after => after.2
  · refine (onKmem_files _ s).bind fun _ t files => ?_
    exact (setProc_returns _ _ _).after.mono fun _ _ after => by rw [after.2, files]; rfl

/-- `newproc` is that of the file table, with what `kalloc` answers. -/
theorem newproc_files (s : Machine) : After newproc s fun new t => ∃ kstack pgt, s.files.newproc kstack pgt = (new, t.files) := by
  unfold newproc
  refine After.step (get_runs s) ?_
  cases found : s.files.procs.claim with
  | none => exact After.pure ⟨none, none, by simp only [Files.newproc, found]⟩
  | some claimed =>
    obtain ⟨slot, procs⟩ := claimed
    refine After.step (set_runs ..) ((newpid_returns _).after.bind ?_)
    rintro pid t ⟨given, -, files⟩
    refine (setProc_returns _ _ _).after.bind ?_
    rintro _ t₁ ⟨-, files₁⟩
    refine (onKmem_files kalloc t₁).bind fun kstack t₂ files₂ => ?_
    refine (setProc_returns _ _ _).after.bind ?_
    rintro _ t₃ ⟨-, files₃⟩
    rw [files₂, files₁, files] at files₃
    cases kstack with
    | none =>
      refine After.pure ⟨none, none, ?_⟩
      simp only [Files.newproc, found, files₃, Procs.fill, Procs.set_set, given]
    | some stackpage =>
      refine (onKmem_files kalloc t₃).bind fun pgt t₄ files₄ => ?_
      refine (setProc_returns _ _ _).after.bind ?_
      rintro _ t₅ ⟨-, files₅⟩
      rw [files₄, files₃] at files₅
      cases pgt with
      | none =>
        refine After.pure ⟨some stackpage, none, ?_⟩
        simp only [Files.newproc, found, files₅, Procs.fill, Procs.set_set, given, Option.map_none]
      | some page =>
        refine (setTable_returns _ _ _).after.bind ?_
        rintro _ t₆ ⟨-, files₆⟩
        refine After.pure ⟨some stackpage, some page, ?_⟩
        simp only [Files.newproc, found, files₆, files₅, Procs.fill, Procs.set_set, given, Option.map_some]

/-- `fork` does to the descriptors what it does for some answers of `kalloc` and `cp_userspace`. -/
theorem fork_files (p : ProcId) (s : Machine) :
    After (fork p) s fun r t => ∃ kstack pgt copied, s.files.fork p kstack pgt copied = (r, t.files) := by
  unfold fork
  refine (newproc_files s).bind fun found t made => ?_
  obtain ⟨kstack, pgt, made⟩ := made
  cases found with
  | none => exact After.pure ⟨kstack, pgt, false, by rw [Files.fork, made]⟩
  | some new =>
    refine After.step (get_runs t) ((tableOf_after p t).bind fun caller u same => ?_)
    obtain ⟨old, oldpgt⟩ := caller
    obtain rfl := same
    refine (tableOf_after new u).bind fun callee v same => ?_
    obtain ⟨page, newpgt⟩ := callee
    obtain rfl := same
    refine (onKmem_files _ v).bind fun copied w files => ?_
    obtain ⟨r, newpgt, oldpgt⟩ := copied
    refine (setTable_returns _ _ _).after.bind ?_
    rintro _ x ⟨-, files₁⟩
    refine (setTable_returns _ _ _).after.bind ?_
    rintro _ y ⟨-, files₂⟩
    have kept : y.files = v.files := files₂.trans (files₁.trans files)
    split
    · refine (freeproc_files new y).bind fun _ z freed => After.pure ⟨kstack, pgt, false, ?_⟩
      rw [Files.fork, made, freed, kept]
      rfl
    · refine (After.iff_of_run publish_runs).2 ⟨kstack, pgt, true, ?_⟩
      rw [Files.fork, made, kept]
      rfl

theorem clone_files (p : ProcId) (s : Machine) :
    After (clone p) s fun r t => ∃ kstack pgt, s.files.clone p kstack pgt = (r, t.files) := by
  unfold clone
  refine (newproc_files s).bind fun found t made => ?_
  obtain ⟨kstack, pgt, made⟩ := made
  cases found with
  | none => exact After.pure ⟨kstack, pgt, by rw [Files.clone, made]⟩
  | some new =>
    refine After.step (get_runs t) ((After.iff_of_run publish_runs).2 ⟨kstack, pgt, ?_⟩)
    rw [Files.clone, made]
    rfl

theorem fork_undoes (p : ProcId) (pids : 0 ≤ s.files.pid) : Undoes (fork p) s ↔ Room s := by
  unfold fork
  refine undoes_iff pids fun {new t} stack nonneg => ?_
  refine After.step (get_runs t) ((tableOf_after p t).bind fun caller u same => ?_)
  obtain ⟨old, oldpgt⟩ := caller
  obtain rfl := same
  refine (tableOf_after new u).bind fun callee v same => ?_
  obtain ⟨page, newpgt⟩ := callee
  obtain rfl := same
  refine (onKmem_after (cpUserspace_fails newpgt oldpgt 0x1000 (v.files.procs p).size v.kmem)).bind fun copied w after => ?_
  obtain ⟨r, newpgt, oldpgt⟩ := copied
  obtain ⟨fails, files⟩ := after
  refine (setTable_returns _ _ _).after.bind fun _ x ⟨kmem₁, files₁⟩ => ?_
  refine (setTable_returns _ _ _).after.bind fun _ y ⟨kmem₂, files₂⟩ => ?_
  have kept : y.files = v.files := files₂.trans (files₁.trans files)
  split
  case isTrue neg =>
    -- the page that is missing has left the lock held
    have held : y.kmem.held = true := by rw [kmem₂, kmem₁, fails neg]
    intro _ z run
    rw [fail_bind.2 (.inl (freeproc_held (by rw [kept]; exact stack) held))] at run
    cases run
  case isFalse =>
    exact publish_pid (by rw [kept]; exact nonneg) (fun _ => rfl) fun _ => rfl

theorem clone_undoes (p : ProcId) (pids : 0 ≤ s.files.pid) : Undoes (clone p) s ↔ Room s := by
  unfold clone
  refine undoes_iff pids fun {new t} _ nonneg => ?_
  exact After.step (get_runs t) (publish_pid nonneg (fun _ => rfl) fun _ => rfl)

/-- **A failing `fork` or `clone`.** When it returns -1, the process table, the counts of the files and the
free pages are as before exactly when all slots were in use, or `newproc` had its two pages, or no call takes
a page any more. -/
theorem undone_iff (s : Machine) (p : ProcId) (pids : 0 ≤ s.files.pid) :
    (Undoes (fork p) s ↔ Room s) ∧ (Undoes (clone p) s ↔ Room s) :=
  ⟨fork_undoes p pids, clone_undoes p pids⟩

/-- A machine with one process, whose table maps nothing, and some free pages. -/
def started (pages : List PageNo) : Machine where
  kmem := { freelist := pages, held := false }
  tables := Function.update (fun _ => none) 1 (some (Table.empty 1))
  files := Files.boot

theorem undone_plenty : Undoes (fork initproc) (started [2, 3, 4, 5, 6, 7]) ∧ Undoes (clone initproc) (started [2, 3, 4, 5, 6, 7]) := by
  have room : Room (started [2, 3, 4, 5, 6, 7]) := .inr (.inl (by decide))
  have right := undone_iff (started [2, 3, 4, 5, 6, 7]) initproc (by decide)
  exact ⟨right.1.2 room, right.2.2 room⟩

/-- With one free page, `fork` and `clone` return -1 with the page and a slot lost. -/
theorem one_page_lost : (∃ t, fork initproc (started [2]) = .ok (-1, t) ∧ (t.files.procs 1).state = .CREATED ∧
      (t.files.procs 1).kstack = some 2 ∧ t.kmem.freelist = [] ∧ ¬ Same (started [2]) t) ∧
    ∃ t, clone initproc (started [2]) = .ok (-1, t) ∧ (t.files.procs 1).state = .CREATED ∧
      (t.files.procs 1).kstack = some 2 ∧ t.kmem.freelist = [] ∧ ¬ Same (started [2]) t := by
  constructor
  · refine ⟨_, rfl, rfl, rfl, rfl, fun same => ?_⟩
    have lost := (same.pages 2).2 List.mem_cons_self
    cases lost
  · refine ⟨_, rfl, rfl, rfl, rfl, fun same => ?_⟩
    have lost := (same.pages 2).2 List.mem_cons_self
    cases lost

end Aarch64Os.Kernel.Forking
