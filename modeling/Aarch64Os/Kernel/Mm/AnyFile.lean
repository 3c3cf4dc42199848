import Aarch64Os.Kernel.Mm.Segments

/-!
# Processes that run any file (`kernel/proc.c`)

A process that has run a file has its segments mapped, also those that its size does not count; `fork`,
`exec` and `exit` go by the size. As long as the pages it counts are mapped they reach no panic of
`pagemap` or `pageunmap`: files that do no harm, `fork` and `exit` keep it so.
-/

namespace Aarch64Os.Kernel
set_option autoImplicit false
open Base

/-- The table of a process covers its size. -/
def UserProc.Covered (q : UserProc) : Prop := ∃ pgt : PageTable, q.pgt = some pgt ∧ pgt.Covers q.size

/-- A call by a process, or `wait` freeing the slot of one that has exited. -/
inductive ImageCall where
  | fork (p : ProcId)
  | exec (p : ProcId) (file : Option (List (Option Phdr))) (argv : List Nat)
  | exit (p : ProcId)
  | reap (p : ProcId)

/-- The state its slot must be in. -/
def ImageCall.enabled (s : Spaces) : ImageCall → Prop
  | fork p | exec p _ _ | exit p => (s.procs p).state = .RUNNABLE
  | reap p => (s.procs p).state = .ZOMBIE

instance (s : Spaces) (call : ImageCall) : Decidable (call.enabled s) :=
  match call with
  | .fork _ | .exec .. | .exit _ | .reap _ => inferInstanceAs (Decidable (_ = _))

def ImageCall.run : ImageCall → SpM Unit
  | fork p => do let _ ← forkSpace p
  | exec p file argv => do let _ ← execProc p file argv
  | exit p => exitSpace p
  | reap p => freeprocSpace p

/-- The processes from the first one on. -/
def images : System Spaces ImageCall where
  init := spaces.init
  step s call := if call.enabled s then ((call.run s).toOption.map Prod.snd) else none

/-- No allocation has failed, and there is no page for a new table, or the headers do no harm. -/
def Spaces.CanExec (s : Spaces) (file : Option (List (Option Phdr))) (argv : List Nat) : Prop :=
  ∀ phdrs ∈ file, s.kmem.held = false ∧ (s.kmem.free = 0 ∨ Mapped.Harmless argv (Mapped.empty (s.kmem.free - 1)) 0 phdrs)

instance (s : Spaces) (file : Option (List (Option Phdr))) (argv : List Nat) : Decidable (s.CanExec file argv) :=
  inferInstanceAs (Decidable (∀ phdrs ∈ file, _ ∧ (_ ∨ _)))

/-- Of the calls, `exec` is the one that may not be fit. -/
def ImageCall.Fits (s : Spaces) : ImageCall → Prop
  | exec _ file argv => s.CanExec file argv
  | _ => True

section Calls
variable {s t : Spaces} {p : ProcId}

/-- What is copied exactly covers, too. -/
theorem PageTable.Maps.covers {pgt : PageTable} {size : Nat} (image : pgt.Maps (Image (PAGEROUNDUP size / PAGESIZE)))
    (low : 1 + PAGEROUNDUP size / PAGESIZE ≤ STACKPAGE) : pgt.Covers size := by
  have top : STACKPAGE < 2 ^ 27 := by decide
  have place : USTACKBOTTOM = STACKPAGE * PAGESIZE := by decide
  refine ⟨fun n lt => (image (1 + n) (by omega)).2 (.inl ⟨Nat.le_add_right 1 n, by omega⟩), ?_, low⟩
  rw [place]
  exact (image STACKPAGE top).2 (.inr rfl)

theorem UserProc.Covered.inherited : Inherited UserProc.Covered where
  table := by
    intro q covered
    obtain ⟨pgt, has, -⟩ := covered
    rw [has]
    rfl
  walked := by
    intro q pgt pgt' covered has same _
    obtain ⟨pgt'', has', covers⟩ := covered
    obtain rfl : pgt = pgt'' := Option.some.inj (has.symm.trans has')
    refine ⟨pgt', rfl, fun n lt => ?_, ?_, covers.low⟩
    · rw [same]
      exact covers.image n lt
    · rw [same]
      exact covers.stack
  copied := by
    intro q q' pgt covered has size image _
    obtain ⟨_, -, covers⟩ := covered
    have low := covers.low
    rw [← size] at image low
    exact ⟨pgt, has, image.covers low⟩
  freed := by
    intro q pgt s covered has _
    obtain ⟨pgt', has', covers⟩ := covered
    obtain rfl : pgt = pgt' := Option.some.inj (has.symm.trans has')
    exact covers.freed s

/-- **`exec`** of a process that is covered, with a file that does no harm. -/
theorem execProc_returns (h : s.Each UserProc.Covered) (live : (s.procs p).state = .RUNNABLE) {file : Option (List (Option Phdr))}
    {argv : List Nat} (can : s.CanExec file argv) :
    Returns (execProc p file argv) s fun r t => (r = -1 ∨ r = argv.length) ∧ t.Each UserProc.Covered := by
  obtain ⟨pgt, has, covers⟩ := h.image p live
  have few := h.few p
  have part : pgt.pages ≤ (s.procs p).pages := by simp only [UserProc.pages, has, Option.elim_some]; omega
  simp only [bootPages] at few
  have ends : Returns (execSpace pgt (s.procs p).size file argv) s.kmem fun e u => (e = (-1, none) ∧ u.free ≤ s.kmem.free) ∨
      ∃ new memsize, e = ((argv.length : Int), some (new, memsize)) ∧ new.Covers memsize ∧
        u.free + new.pages ≤ s.kmem.free + pgt.pages := by
    cases file with
    | none => exact Returns.pure (.inl ⟨rfl, le_rfl⟩)
    | some phdrs =>
      obtain ⟨lock, harmless⟩ := can phdrs rfl
      exact execSpace_harmless covers lock harmless (by omega)
  unfold execProc
  apply Returns.step (get_runs s)
  apply Returns.step (pgtOf_runs has)
  apply (onKmem_returns ends).bind
  rintro e t ⟨⟨rfl, less⟩ | ⟨new, memsize, rfl, covers', less⟩, same⟩
  · rw [same]
    apply Returns.pure
    have kept := h.put (k := t.kmem) (p := p) (q := s.procs p) s.nextpid (by omega) (h.image p)
    rw [Function.update_eq_self] at kept
    exact ⟨.inl rfl, kept⟩
  · rw [same]
    apply Returns.step (setProc_runs ..)
    apply Returns.pure
    refine ⟨.inr rfl, h.put s.nextpid ?_ fun _ => ⟨new, rfl, covers'⟩⟩
    simp only [UserProc.pages, has, Option.elim_some] at *
    omega

end Calls

section Runs
variable {s t : Spaces}

theorem images_step {call : ImageCall} : images.step s call = some t ↔ call.enabled s ∧ ∃ r, call.run s = .ok (r, t) := by
  show (if call.enabled s then ((call.run s).toOption.map Prod.snd) else none) = some t ↔ _
  split
  case isFalse off => exact iff_of_false nofun fun on => off on.1
  case isTrue on =>
    cases call.run s with
    | error e => exact iff_of_false nofun (by simp)
    | ok r =>
      obtain ⟨r, u⟩ := r
      constructor
      · intro same
        cases same
        exact ⟨on, r, rfl⟩
      · rintro ⟨-, r', same⟩
        cases same
        rfl

theorem images_init (boot : images.init s) : s.Each UserProc.Covered := by
  have right := spaces_init boot
  refine ⟨right.total, fun p live => ?_⟩
  obtain ⟨pgt, has, image, long, -⟩ := right.image p live
  have few := right.few p
  have part : pgt.pages ≤ (s.procs p).pages := by simp only [UserProc.pages, has, Option.elim_some]; omega
  have top : 2 ^ 16 + 1 ≤ STACKPAGE := by decide
  simp only [bootPages] at few
  exact ⟨pgt, has, image.covers (by omega)⟩

/-- Each call that fits keeps every process covered. -/
theorem ImageCall.keeps (h : s.Each UserProc.Covered) (call : ImageCall) (on : call.enabled s) (fits : call.Fits s) :
    After call.run s fun _ t => t.Each UserProc.Covered := by
  cases call with
  | fork p => exact (forkSpace_ends UserProc.Covered.inherited h on).1.bind fun _ _ covered => After.pure covered
  | exec p file argv => exact (execProc_returns h on fits).after.bind fun _ _ given => After.pure given.2
  | exit p => exact (exitSpace_ends UserProc.Covered.inherited h on).1
  | reap p => exact (freeprocSpace_ends h p).1

theorem images_covered (run : images.Via (fun s call => call.Fits s) s) : s.Each UserProc.Covered := by
  apply run.invariant (fun s boot => images_init boot)
  intro s call t covered fits step
  obtain ⟨on, r, run⟩ := images_step.1 step
  exact call.keeps covered on fits r t run

/-- **Any file.** In a run whose `exec` calls all fit, each `exec` that fits returns -1 or the number of its
arguments, and no `fork` or `exit` of a process reaches a panic of `pagemap` or `pageunmap`. -/
theorem any_file_runs (run : images.Via (fun s call => call.Fits s) s) {p : ProcId} (live : (s.procs p).state = .RUNNABLE) :
    (∀ file argv, s.CanExec file argv → Returns (execProc p file argv) s fun r _ => r = -1 ∨ r = argv.length) ∧
    ∀ msg ∈ pagePanics, forkSpace p s ≠ .error (.panic msg) ∧ exitSpace p s ≠ .error (.panic msg) := by
  have covered := images_covered run
  refine ⟨fun file argv can => (execProc_returns covered live can).mono fun _ _ given => given.1, fun msg mem => ⟨fun fails => ?_, fun fails => ?_⟩⟩
  · exact (forkSpace_ends UserProc.Covered.inherited covered live).2 _ fails ⟨msg, mem, rfl⟩
  · exact (exitSpace_ends UserProc.Covered.inherited covered live).2 _ fails ⟨msg, mem, rfl⟩

/-- A segment of a file whose data is all zero. -/
def Phdr.bss (p_vaddr p_memsz : Nat) : Phdr := { p_type := PT_LOAD, p_vaddr, p_memsz, p_filesz := 0, reads := fun _ => true }

/-- The first process runs a file of two segments, one behind the other, and forks. -/
theorem two_segments_run : ∃ s, (s.procs 0).size = 0x2800 ∧ (s.procs 1).size = 0x2800 ∧
    (Returns (execProc 1 (some [some (Phdr.bss 0x1000 0x1000)]) [3]) s fun r _ => r = -1 ∨ r = 1) ∧
    ∀ msg ∈ pagePanics, forkSpace 1 s ≠ .error (.panic msg) ∧ exitSpace 1 s ≠ .error (.panic msg) := by
  have run : (smallBoot.bind fun s => (images.step s (.exec 0 (some [some (Phdr.bss 0x1000 0x2000), some (Phdr.bss 0x3000 0x800)]) [])).bind
      fun t => (images.step t (.fork 0)).map fun u =>
        decide (s.CanExec (some [some (Phdr.bss 0x1000 0x2000), some (Phdr.bss 0x3000 0x800)]) [] ∧ (u.procs 0).size = 0x2800 ∧
          (u.procs 1).size = 0x2800 ∧ (u.procs 1).state = .RUNNABLE ∧ u.CanExec (some [some (Phdr.bss 0x1000 0x1000)]) [3])) =
      some true := by decide +kernel
  obtain ⟨s, boot, rest⟩ := Option.bind_eq_some_iff.1 run
  obtain ⟨t, exec, rest⟩ := Option.bind_eq_some_iff.1 rest
  obtain ⟨u, fork, shown⟩ := Option.map_eq_some_iff.1 rest
  obtain ⟨can, size, size', live, can'⟩ := of_decide_eq_true shown
  have started : images.Via (fun s call => call.Fits s) s := .init (smallBoot_init boot)
  have via : images.Via (fun s call => call.Fits s) u := .step (.step (a := .exec ..) started can exec) (a := .fork 0) trivial fork
  obtain ⟨returns, panics⟩ := any_file_runs via live
  exact ⟨u, size, size', returns _ _ can', panics⟩

/-- A boot with 32 pages. -/
def roomyBoot : Option Spaces :=
  match userprocInit 0x1000 { kmem := { freelist := List.range' 1 32, held := false }, procs := fun _ => UserProc.zero, nextpid := 0 } with
  | .ok (true, s) => some s
  | _ => none

theorem roomyBoot_init (boot : roomyBoot = some s) : images.init s := by
  unfold roomyBoot at boot
  split at boot
  · rename_i s' run
    cases boot
    exact ⟨List.range' 1 32, 0x1000, by decide, run⟩
  · cases boot

/-- Whether a call ends in the panic. -/
def endsIn {α : Type} (msg : String) : Except Fault α → Bool
  | .error fault => fault = .panic msg
  | .ok _ => false

theorem endsIn_iff {α : Type} {msg : String} {r : Except Fault α} : endsIn msg r = true ↔ r = .error (.panic msg) := by
  cases r with
  | error fault => simp [endsIn]
  | ok _ => simp [endsIn]

/-- A segment that does not begin at a page, and two on one page: `exec` panics. One that is not at `0x1000` is accepted,
and the `exit` of the process that runs it panics. -/
theorem bad_segments_panic : ∃ s t, images.Reach s ∧ images.Reach t ∧ (s.procs 1).state = .RUNNABLE ∧
    execProc 1 (some [some (Phdr.bss 0x1001 1)]) [] s = .error (.panic "invalid pagemap") ∧
    execProc 1 (some [some (Phdr.bss 0x1000 1), some (Phdr.bss 0x1000 1)]) [] s = .error (.panic "this entry has been used") ∧
    images.step s (.exec 1 (some [some (Phdr.bss 0x5000 1)]) []) = some t ∧ exitSpace 1 t = .error (.panic "bad unmap") := by
  have run : (roomyBoot.bind fun s => (images.step s (.fork 0)).bind fun t =>
      (images.step t (.exec 1 (some [some (Phdr.bss 0x5000 1)]) [])).map fun u =>
        decide ((t.procs 1).state = .RUNNABLE) && endsIn "invalid pagemap" (execProc 1 (some [some (Phdr.bss 0x1001 1)]) [] t) &&
          endsIn "this entry has been used" (execProc 1 (some [some (Phdr.bss 0x1000 1), some (Phdr.bss 0x1000 1)]) [] t) &&
          endsIn "bad unmap" (exitSpace 1 u)) = some true := by decide +kernel
  obtain ⟨s, boot, rest⟩ := Option.bind_eq_some_iff.1 run
  obtain ⟨t, fork, rest⟩ := Option.bind_eq_some_iff.1 rest
  obtain ⟨u, exec, shown⟩ := Option.map_eq_some_iff.1 rest
  simp only [Bool.and_eq_true, endsIn_iff, decide_eq_true_eq] at shown
  obtain ⟨⟨⟨live, unaligned⟩, overlapping⟩, exits⟩ := shown
  have forked : images.Reach t := .step (a := .fork 0) (.init (roomyBoot_init boot)) trivial fork
  exact ⟨t, u, forked, .step (a := .exec ..) forked trivial exec, live, unaligned, overlapping, exec, exits⟩

end Runs

end Aarch64Os.Kernel
