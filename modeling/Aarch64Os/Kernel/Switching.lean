import Aarch64Os.Kernel.Cpus

/-!
# What a CPU holds at a `cswitch`

`Fits` says that what a thread still does goes with the depth of its CPU and the locks the CPU holds: it is
kept by each statement, and all functions of the kernel fit a CPU that holds nothing. The signal check in
`sleep` is the exception, because it comes behind the `acquire` of the caller's lock: as long as it finds no
signal there, and `kalloc` always finds a page, each `cswitch` is with `proctable.lk` alone.
-/

namespace Aarch64Os.Kernel.Cpus
set_option autoImplicit false
open Base Tasks

/-- A statement is right for a CPU at depth `n` that holds these locks, when what is behind it is right
for those it leaves. -/
def Op.Fits (rest : Nat → List Lock → Prop) (n : Nat) (held : List Lock) : Op → Prop
  | .pushcli => rest (n + 1) held
  | .popcli => rest (n - 1) held
  | .take l => rest n (l :: held)
  | .drop l => rest n (held.erase l)
  | .enable | .iret => n = 0 ∧ rest n held
  | .eret => n = 0 ∧ held = []
  | .tick => n = 0 ∧ held = [] ∧ rest n held
  | .scan _ | .die => n = 1 ∧ held = [.proctable]
  | .yield | .sleep _ => n = 1 ∧ held = [.proctable] ∧ rest n held
  | .sigcheck => n = held.length ∧ rest n held
  | .poll _ => n = 1 ∧ held = [.disk] ∧ rest n held
  | .look _ | .pget _ _ => n = 1 ∧ held = [.proctable] ∧ rest 0 []
  | .unlink => n = 1 ∧ held = [.kallocator] ∧ rest 0 []
  | .chanNull | .exiting _ | .works | .wakeupAcquired _ | .setSig _ _ | .rouse _ | .claim | .fill .. | .publish _ _ | .fail _ =>
    rest n held
  | .panic _ => True

/-- What a thread still does is right for the depth and the locks; at its end it holds nothing. -/
def Fits : List Op → Nat → List Lock → Prop
  | [], n, held => n = 0 ∧ held = []
  | op :: k, n, held => op.Fits (Fits k) n held

section Code
variable {k : List Op} {n : Nat} {held : List Lock}

/-- A critical section that is closed is right for any locks. -/
theorem closes_fits : ∀ {own : List Lock} {w : List WorkOp}, closes own w = true → Fits k n held →
    Fits (w.flatMap WorkOp.ops ++ k) (n + own.length) (own ++ held) := by
  intro own w
  induction w generalizing own with
  | nil =>
    intro closed fits
    obtain rfl : own = [] := List.isEmpty_iff.1 closed
    exact fits
  | cons op w ih =>
    intro closed fits
    cases op with
    | acquire l => exact ih closed fits
    | release l =>
      obtain ⟨mem, closed⟩ := Bool.and_eq_true_iff.1 closed
      have mem : l ∈ own := List.contains_iff_mem.1 mem
      have rest := ih closed fits
      have some : 0 < own.length := List.length_pos_of_mem mem
      have less : n + (own.erase l).length = n + own.length - 1 := by
        rw [List.length_erase_of_mem mem]
        omega
      rw [less, ← List.erase_append_left _ mem] at rest
      exact rest
    | wakeup a =>
      obtain ⟨-, closed⟩ := Bool.and_eq_true_iff.1 closed
      exact ih closed fits

theorem Work.fits (w : Work) (fits : Fits k n held) : Fits (w.ops ++ k) n held := closes_fits w.2 fits

/-- `sleep` fits one who holds the lock he gives it. -/
theorem sleep_fits (chan : Chan) {lk : Lock} (other : lk ≠ .proctable) (fits : Fits k 1 [lk]) :
    Fits (sleep chan lk ++ k) 1 [lk] := by
  have left : [Lock.proctable, lk].erase lk = [.proctable] := by
    rw [List.erase_cons_tail (by simpa using other.symm), List.erase_cons_head]
  unfold sleep
  rw [if_pos other, if_pos other]
  have slept : Fits (.sleep chan :: .chanNull :: (release .proctable ++ (acquire lk ++ .sigcheck :: k))) 1 [.proctable] :=
    ⟨rfl, rfl, rfl, fits⟩
  rw [← left] at slept
  exact slept

theorem sleep_proctable_fits (chan : Chan) (fits : Fits k 0 []) : Fits (sleep chan .proctable ++ k) 1 [.proctable] :=
  ⟨rfl, rfl, rfl, fits⟩

theorem killproc_fits (target : ProcId) (sig : Int) (fits : Fits k 0 []) : Fits (killproc target sig ++ k) 0 [] := fits

/-- All functions fit a process that holds nothing. -/
theorem Call.fits (call : Call) : Fits call.code 0 [] := by
  have nothing : Fits [] 0 [] := ⟨rfl, rfl⟩
  cases call with
  | work w =>
    have fits := w.fits nothing
    rwa [List.append_nil] at fits
  | csread buf => exact sleep_fits (.addr buf) (show Lock.cs ≠ .proctable by decide) nothing
  | kalloc | virtio_blk_op _ | wait _ | kill _ _ => exact ⟨rfl, rfl, nothing⟩
  | killproc target sig => exact nothing
  | newproc | fill _ _ _ _ | publish _ _ | fail _ => exact nothing
  | exit status => exact ⟨rfl, rfl⟩
  | ret => exact ⟨rfl, rfl, rfl⟩
  | trapret => exact ⟨rfl, rfl⟩

theorem Irq.fits (which : Irq) : Fits which.code 0 [] := by
  cases which with
  | spurious => exact ⟨rfl, rfl⟩
  | device => exact ⟨rfl, rfl, rfl⟩
  | timer => exact ⟨rfl, rfl, rfl, rfl, rfl⟩

end Code

/-- The slot is not on a CPU and will be. -/
def Proc.Parked (q : Proc) : Prop := q.state = .RUNNABLE ∨ q.state = .SLEEPING

section Table
variable {procs procs' : Procs} {p : ProcId} {k k' : List Op} {op : Op}

/-- Who is running goes on running, and who is parked was. -/
structure Settles (procs procs' : Procs) : Prop where
  running : ∀ q, (procs q).state = .RUNNING → (procs' q).state = .RUNNING
  parked : ∀ q, Proc.Parked (procs' q) → Proc.Parked (procs q)

theorem Settles.rfl : Settles procs procs := ⟨fun _ same => same, fun _ same => same⟩

/-- A write to a slot that leaves its state. -/
theorem Settles.set (f : Proc → Proc) (same : ∀ q, (f q).state = q.state) (p : ProcId) : Settles procs (procs.set p f) := by
  have states : ∀ q, (procs.set p f q).state = (procs q).state := by
    intro q
    rw [Procs.set_apply]
    split
    · subst q
      exact same _
    · rfl
  refine ⟨fun q running => (states q).trans running, fun q parked => ?_⟩
  rw [Proc.Parked, states] at parked
  exact parked

/-- A slot nobody runs or will run is freed, or taken. -/
theorem Settles.out {f : Proc → Proc} (idle : (procs p).state ≠ .RUNNING) (out : ¬ Proc.Parked (f (procs p))) :
    Settles procs (procs.set p f) := by
  refine ⟨fun q running => ?_, fun q parked => ?_⟩
  · rwa [Procs.set_ne]
    rintro rfl
    exact idle running
  · rcases eq_or_ne q p with rfl | ne
    · rw [Procs.set_self] at parked
      exact absurd parked out
    · rwa [Procs.set_ne _ _ ne] at parked

theorem Settles.wakeupAcquired (chan : Option Chan) : Settles procs (procs.wakeupAcquired chan) := by
  refine ⟨fun q running => ?_, fun q parked => ?_⟩
  · rcases procs.wakeupAcquired_cases chan q with same | ⟨asleep, -⟩
    · rwa [same]
    · rw [running] at asleep
      cases asleep
  · rcases procs.wakeupAcquired_cases chan q with same | ⟨asleep, -⟩
    · rwa [same] at parked
    · exact .inr asleep

/-- A sleeper is made runnable. -/
theorem Settles.rouse (asleep : (procs p).state = .SLEEPING) :
    Settles procs (procs.set p fun q => { q with state := .RUNNABLE }) := by
  refine ⟨fun q running => ?_, fun q parked => ?_⟩
  · rwa [Procs.set_ne]
    rintro rfl
    rw [running] at asleep
    cases asleep
  · rcases eq_or_ne q p with rfl | ne
    · exact .inr asleep
    · rwa [Procs.set_ne _ _ ne] at parked

/-- What the statements do to the states of the table. -/
theorem table_settles (ends : table procs p k op = some (procs', k')) : Settles procs procs' := by
  have free : ¬ Proc.Parked Proc.zero := by
    rintro (off | off) <;> cases off
  cases op with
  | chanNull =>
    obtain ⟨rfl, rfl⟩ := Prod.mk.inj (Option.some.inj ends)
    exact .set (fun q => { q with chan := none }) (fun _ => rfl) p
  | sigcheck =>
    replace ends := Option.some.inj ends
    split at ends
    · obtain ⟨rfl, rfl⟩ := Prod.mk.inj ends
      exact .set (fun q => { q with sig := 0 }) (fun _ => rfl) p
    · obtain ⟨rfl, rfl⟩ := Prod.mk.inj ends
      exact .rfl
  | exiting ret =>
    replace ends := Option.some.inj ends
    split at ends
    · obtain ⟨rfl, rfl⟩ := Prod.mk.inj ends
      exact .rfl
    · obtain ⟨rfl, rfl⟩ := Prod.mk.inj ends
      exact .set (fun q => { q with ret }) (fun _ => rfl) p
  | look w =>
    replace ends := Option.some.inj ends
    split at ends
    · rename_i z found
      obtain ⟨rfl, rfl⟩ := Prod.mk.inj ends
      have zombie : (procs z).state = .ZOMBIE := by
        have both := List.find?_some found
        simp only [Bool.decide_and, Bool.and_eq_true, decide_eq_true_eq] at both
        exact both.2
      exact .out (by rw [zombie]; decide) free
    · obtain ⟨rfl, rfl⟩ := Prod.mk.inj ends
      exact .rfl
  | wakeupAcquired chan =>
    obtain ⟨rfl, rfl⟩ := Prod.mk.inj (Option.some.inj ends)
    exact .wakeupAcquired _
  | pget pid sig =>
    obtain ⟨rfl, rfl⟩ := Prod.mk.inj (Option.some.inj ends)
    exact .rfl
  | setSig target sig =>
    obtain ⟨rfl, rfl⟩ := Prod.mk.inj (Option.some.inj ends)
    exact .set (fun q => { q with sig }) (fun _ => rfl) target
  | rouse target =>
    obtain ⟨rfl, rfl⟩ := Prod.mk.inj (Option.some.inj ends)
    split
    · exact .rouse ‹_›
    · exact .rfl
  | claim =>
    obtain ⟨rfl, rfl⟩ := Prod.mk.inj (Option.some.inj ends)
    cases found : procs.claim with
    | none => exact .rfl
    | some r =>
      obtain ⟨unused, same⟩ := Procs.claim_some (show procs.claim = some (r.1, r.2) from found)
      show Settles procs r.2
      rw [same]
      refine .out (by rw [unused]; decide) ?_
      rintro (off | off) <;> cases off
  | fill new pid kstack pgt =>
    change (if (procs new).state = .CREATED then some ((procs.fill new pid kstack pgt).2, k) else none) = _ at ends
    split at ends
    · obtain ⟨rfl, rfl⟩ := Prod.mk.inj (Option.some.inj ends)
      obtain ⟨g, same, filled, -⟩ := procs.fill_eq new pid kstack pgt
      rw [filled]
      exact .set g (fun q => (same q).2) new
    · cases ends
  | fail new =>
    change (if (procs new).state = .CREATED then some (procs.freeproc new, kfree.ops ++ k) else none) = _ at ends
    split at ends
    · rename_i created
      obtain ⟨rfl, rfl⟩ := Prod.mk.inj (Option.some.inj ends)
      exact .out (by rw [created]; decide) free
    · cases ends
  | tick =>
    obtain ⟨rfl, rfl⟩ := Prod.mk.inj (Option.some.inj ends)
    exact .rfl
  | pushcli | popcli | take _ | drop _ | enable | scan _ | yield | sleep _ | die | works | poll _ | publish _ _ | unlink | eret | iret | panic _ =>
    cases ends

/-- What they go on with is right for the same CPU, when the signal check finds a signal with no lock held only. -/
theorem table_fits {n : Nat} {held : List Lock} (ends : table procs p k op = some (procs', k')) (fits : Fits (op :: k) n held)
    (calm : op = .sigcheck → (procs p).sig ≠ 0 → held = []) : Fits k' n held := by
  cases op with
  | sigcheck =>
    obtain ⟨depth, rest⟩ := fits
    replace ends := Option.some.inj ends
    split at ends
    · rename_i signal
      obtain ⟨rfl, rfl⟩ := Prod.mk.inj ends
      obtain rfl := calm rfl signal
      obtain rfl := depth
      exact ⟨rfl, rfl⟩
    · obtain ⟨rfl, rfl⟩ := Prod.mk.inj ends
      exact rest
  | exiting ret =>
    replace ends := Option.some.inj ends
    split at ends
    · obtain ⟨rfl, rfl⟩ := Prod.mk.inj ends
      trivial
    · obtain ⟨rfl, rfl⟩ := Prod.mk.inj ends
      exact fits
  | look w =>
    obtain ⟨rfl, rfl, rest⟩ := fits
    replace ends := Option.some.inj ends
    split at ends
    · obtain ⟨rfl, rfl⟩ := Prod.mk.inj ends
      exact kfree.fits rest
    · obtain ⟨rfl, rfl⟩ := Prod.mk.inj ends
      exact sleep_proctable_fits _ ⟨rfl, rfl, rest⟩
  | pget pid sig =>
    obtain ⟨rfl, rfl, rest⟩ := fits
    obtain ⟨rfl, rfl⟩ := Prod.mk.inj (Option.some.inj ends)
    split
    · rename_i target _
      exact killproc_fits target sig rest
    · exact rest
  | fill new pid kstack pgt =>
    change (if (procs new).state = .CREATED then some ((procs.fill new pid kstack pgt).2, k) else none) = _ at ends
    split at ends
    · obtain ⟨rfl, rfl⟩ := Prod.mk.inj (Option.some.inj ends)
      exact fits
    · cases ends
  | fail new =>
    change (if (procs new).state = .CREATED then some (procs.freeproc new, kfree.ops ++ k) else none) = _ at ends
    split at ends
    · obtain ⟨rfl, rfl⟩ := Prod.mk.inj (Option.some.inj ends)
      exact kfree.fits fits
    · cases ends
  | tick =>
    obtain ⟨rfl, rfl, rest⟩ := fits
    obtain ⟨rfl, rfl⟩ := Prod.mk.inj (Option.some.inj ends)
    split
    · exact ⟨rfl, rfl, rest⟩
    · exact rest
  | chanNull | wakeupAcquired _ | setSig _ _ | rouse _ | claim =>
    obtain ⟨rfl, rfl⟩ := Prod.mk.inj (Option.some.inj ends)
    exact fits
  | pushcli | popcli | take _ | drop _ | enable | scan _ | yield | sleep _ | die | works | poll _ | publish _ _ | unlink | eret | iret | panic _ =>
    cases ends

end Table

section Machine
variable {C : Type} [DecidableEq C]

/-- The locks a CPU holds and its depth are right for its thread. -/
def State.Fit (s : State C) (c : C) : Prop :=
  ∃ held : List Lock, held.Nodup ∧ (∀ l, s.lock l = some c ↔ l ∈ held) ∧ Fits (s.code (s.me c)) (s.cpu c).cli_depth held

/-- Nobody runs on two CPUs; each CPU is right for its thread, and who is off will be right for one that
holds `proctable.lk`. A CPU that holds a lock takes no interrupt. -/
structure Inv (s : State C) : Prop where
  running : ∀ c p, (s.cpu c).proc = some p → (s.procs p).state = .RUNNING
  alone : ∀ c d p, (s.cpu c).proc = some p → (s.cpu d).proc = some p → c = d
  fit : ∀ c, s.Fit c
  parked : ∀ p, Proc.Parked (s.procs p) → Fits (s.code (.proc p)) 1 [.proctable]
  sched : ∀ c p, (s.cpu c).proc = some p → Fits (s.code (.sched c)) 1 [.proctable]
  masked : ∀ c, (s.cpu c).cli_depth ≠ 0 → (s.cpu c).irq = false

/-- The next statement on CPU `c` is a signal check, and there is a signal. -/
def State.finds (s : State C) (c : C) : Bool :=
  match (s.cpu c).proc, s.code (s.me c) with
  | some p, .sigcheck :: _ => (s.procs p).sig ≠ 0
  | _, _ => false

/-- A signal check that finds a signal is not with a lock in hand, and `kalloc` finds a page. -/
def Calm (s : State C) : Label C → Prop
  | .op c => s.finds c = true → ∀ l, s.lock l ≠ some c
  | .unlink _ got => got = true
  | _ => True

instance (s : State C) (l : Label C) : Decidable (Calm s l) :=
  match l with
  | .op c => inferInstanceAs (Decidable (s.finds c = true → ∀ l, s.lock l ≠ some c))
  | .unlink _ got => inferInstanceAs (Decidable (got = true))
  | .work .. | .poll .. | .call .. | .svc _ | .irq .. => isTrue trivial

variable {s t : State C} {c d : C} {p : ProcId} {k : List Op} {op : Op}

omit [DecidableEq C] in
theorem State.me_proc (on : (s.cpu c).proc = some p) : s.me c = .proc p := by
  rw [State.me, on]

omit [DecidableEq C] in
theorem State.me_sched (off : (s.cpu c).proc = none) : s.me c = .sched c := by
  rw [State.me, off]

omit [DecidableEq C] in
theorem State.me_same (same : (t.cpu c).proc = (s.cpu c).proc) : t.me c = s.me c := by
  rw [State.me, State.me, same]

omit [DecidableEq C] in
/-- The threads on the CPUs are different. -/
theorem Inv.apart (h : Inv s) (ne : d ≠ c) : s.me d ≠ s.me c := by
  intro same
  cases off : (s.cpu c).proc with
  | none =>
    rw [State.me_sched off] at same
    cases off' : (s.cpu d).proc with
    | none =>
      rw [State.me_sched off'] at same
      exact ne (Thread.sched.inj same)
    | some q =>
      rw [State.me_proc off'] at same
      cases same
  | some p =>
    rw [State.me_proc off] at same
    cases off' : (s.cpu d).proc with
    | none =>
      rw [State.me_sched off'] at same
      cases same
    | some q =>
      rw [State.me_proc off'] at same
      obtain rfl := Thread.proc.inj same
      exact ne (h.alone d c _ off' off)

/-- What a step of the thread on CPU `c` leaves alone, when it stays there. -/
structure Frame (s : State C) (c : C) (t : State C) : Prop where
  proc : (t.cpu c).proc = (s.cpu c).proc
  cpu : ∀ d ≠ c, t.cpu d = s.cpu d
  lock : ∀ d ≠ c, ∀ l, t.lock l = some d ↔ s.lock l = some d
  code : ∀ T ≠ s.me c, (∀ q, T = .proc q → (s.procs q).state ≠ .CREATED) → t.code T = s.code T
  running : ∀ q, (s.procs q).state = .RUNNING → (t.procs q).state = .RUNNING
  parked : ∀ q, Proc.Parked (t.procs q) → Proc.Parked (s.procs q) ∨ Fits (t.code (.proc q)) 1 [.proctable]

/-- The thread goes on where it is. -/
theorem State.go_self : s.go c (s.code (s.me c)) = s := by
  unfold State.go
  rw [Function.update_eq_self]

/-- One that writes no code but its own. -/
theorem Frame.own (code : t.code = Function.update s.code (s.me c) k) (proc : (t.cpu c).proc = (s.cpu c).proc)
    (cpu : ∀ d ≠ c, t.cpu d = s.cpu d) (lock : ∀ d ≠ c, ∀ l, t.lock l = some d ↔ s.lock l = some d)
    (settles : Settles s.procs t.procs) : Frame s c t where
  proc := proc
  cpu := cpu
  lock := lock
  code T ne _ := by
    rw [code, Function.update_of_ne ne]
  running := settles.running
  parked q parked := .inl (settles.parked q parked)

omit [DecidableEq C] in
/-- **A step within a thread.** -/
theorem Inv.moves (h : Inv s) (frame : Frame s c t) {n : Nat} {held : List Lock} (code : t.code (s.me c) = k)
    (depth : (t.cpu c).cli_depth = n) (nodup : held.Nodup) (locks : ∀ l, t.lock l = some c ↔ l ∈ held) (fits : Fits k n held)
    (masked : n ≠ 0 → (t.cpu c).irq = false) : Inv t := by
  have procs : ∀ d, (t.cpu d).proc = (s.cpu d).proc := by
    intro d
    rcases eq_or_ne d c with rfl | ne
    · exact frame.proc
    · rw [frame.cpu d ne]
  refine ⟨fun d p on => ?_, fun d e p on on' => ?_, fun d => ?_, fun p parked => ?_, fun d p on => ?_, fun d deep => ?_⟩
  · exact frame.running p (h.running d p ((procs d).symm.trans on))
  · exact h.alone d e p ((procs d).symm.trans on) ((procs e).symm.trans on')
  · rcases eq_or_ne d c with rfl | ne
    · refine ⟨held, nodup, locks, ?_⟩
      rw [State.me_same frame.proc, code, depth]
      exact fits
    · obtain ⟨held', nodup', locks', fits'⟩ := h.fit d
      refine ⟨held', nodup', fun l => (frame.lock d ne l).trans (locks' l), ?_⟩
      rw [State.me_same (procs d), frame.cpu d ne, frame.code _ (h.apart ne)]
      · exact fits'
      · intro q on created
        cases off : (s.cpu d).proc with
        | none =>
          rw [State.me_sched off] at on
          cases on
        | some q' =>
          rw [State.me_proc off] at on
          obtain rfl := Thread.proc.inj on
          rw [h.running d _ off] at created
          cases created
  · rcases frame.parked p parked with before | fresh
    · rw [frame.code]
      · exact h.parked p before
      · intro same
        cases on : (s.cpu c).proc with
        | none =>
          rw [State.me_sched on] at same
          cases same
        | some q =>
          rw [State.me_proc on] at same
          obtain rfl := Thread.proc.inj same
          rw [Proc.Parked, h.running c _ on] at before
          rcases before with off | off <;> cases off
      · intro q same created
        obtain rfl := Thread.proc.inj same
        rw [Proc.Parked, created] at before
        rcases before with off | off <;> cases off
    · exact fresh
  · have on' := (procs d).symm.trans on
    rw [frame.code]
    · exact h.sched d p on'
    · intro same
      cases off : (s.cpu c).proc with
      | none =>
        rw [State.me_sched off] at same
        obtain rfl := Thread.sched.inj same
        rw [off] at on'
        cases on'
      | some q =>
        rw [State.me_proc off] at same
        cases same
    · intro q same
      cases same
  · rcases eq_or_ne d c with rfl | ne
    · exact masked (depth ▸ deep)
    · rw [frame.cpu d ne] at deep ⊢
      exact h.masked d deep

/-- A statement that changes the CPU and the locks. -/
theorem Inv.cpu (h : Inv s) {x : Cpu} {L : Lock → Option C} {before : Thread C → Option Bool} {user : ProcId → Bool} {n : Nat} {held : List Lock}
    (same : x.proc = (s.cpu c).proc) (others : ∀ d ≠ c, ∀ l, L l = some d ↔ s.lock l = some d) (depth : x.cli_depth = n)
    (nodup : held.Nodup) (locks : ∀ l, L l = some c ↔ l ∈ held) (fits : Fits k n held) (masked : n ≠ 0 → x.irq = false) :
    Inv { (s.go c k).setCpu c x with lock := L, before, user } := by
  have here : Function.update s.cpu c x c = x := Function.update_self ..
  have frame : Frame s c { (s.go c k).setCpu c x with lock := L, before, user } := by
    refine .own rfl ?_ (fun d ne => Function.update_of_ne ne ..) others .rfl
    exact (congrArg Cpu.proc here).trans same
  refine h.moves frame (Function.update_self ..) ?_ nodup locks fits fun deep => ?_
  · exact (congrArg Cpu.cli_depth here).trans depth
  · exact (congrArg Cpu.irq here).trans (masked deep)

/-- A statement that writes to the table. -/
theorem Inv.table (h : Inv s) {procs : Procs} {n : Nat} {held : List Lock} (settles : Settles s.procs procs)
    (depth : (s.cpu c).cli_depth = n) (nodup : held.Nodup) (locks : ∀ l, s.lock l = some c ↔ l ∈ held) (fits : Fits k n held) :
    Inv { s.go c k with procs } := by
  have frame : Frame s c { s.go c k with procs } := .own rfl rfl (fun _ _ => rfl) (fun _ _ _ => Iff.rfl) settles
  refine h.moves frame (Function.update_self ..) depth nodup locks fits fun deep => ?_
  exact h.masked c (depth ▸ deep)

/-- A process leaves its CPU to the scheduler. -/
theorem Inv.leave (h : Inv s) (on : (s.cpu c).proc = some p) {procs : Procs} (depth : (s.cpu c).cli_depth = 1)
    (alone : ∀ l, s.lock l = some c ↔ l ∈ [Lock.proctable]) (running : ∀ q ≠ p, (s.procs q).state = .RUNNING → (procs q).state = .RUNNING)
    (parked : ∀ q ≠ p, Proc.Parked (procs q) → Proc.Parked (s.procs q)) (fits : Proc.Parked (procs p) → Fits k 1 [.proctable]) :
    Inv ((s.go c k).leave c procs) := by
  have here : ((s.go c k).leave c procs).cpu c = { s.cpu c with proc := none } := Function.update_self ..
  have there : ∀ d ≠ c, ((s.go c k).leave c procs).cpu d = s.cpu d := fun d ne => Function.update_of_ne ne ..
  have code : ∀ T ≠ .proc p, ((s.go c k).leave c procs).code T = s.code T := by
    intro T ne
    rw [← State.me_proc on] at ne
    exact Function.update_of_ne ne ..
  have other : ∀ d q, (((s.go c k).leave c procs).cpu d).proc = some q → d ≠ c ∧ (s.cpu d).proc = some q := by
    intro d q on'
    rcases eq_or_ne d c with rfl | ne
    · rw [here] at on'
      cases on'
    · rw [there d ne] at on'
      exact ⟨ne, on'⟩
  refine ⟨fun d q on' => ?_, fun d e q on₁ on₂ => ?_, fun d => ?_, fun q waits => ?_, fun d q on' => ?_, fun d deep => ?_⟩
  · obtain ⟨ne, on'⟩ := other d q on'
    refine running q ?_ (h.running d q on')
    rintro rfl
    exact ne (h.alone d c _ on' on)
  · exact h.alone d e q (other d q on₁).2 (other e q on₂).2
  · rcases eq_or_ne d c with rfl | ne
    · refine ⟨[.proctable], List.nodup_singleton _, alone, ?_⟩
      have me : ((s.go d k).leave d procs).me d = .sched d := State.me_sched (by rw [here])
      rw [me, code (.sched d) nofun, here]
      show Fits _ (s.cpu d).cli_depth _
      rw [depth]
      exact h.sched d p on
    · obtain ⟨held, nodup, locks, fits⟩ := h.fit d
      refine ⟨held, nodup, locks, ?_⟩
      have same : ((s.go c k).leave c procs).me d = s.me d := State.me_same (by rw [there d ne])
      rw [same, there d ne, code _ (by rw [← State.me_proc on]; exact h.apart ne)]
      exact fits
  · rcases eq_or_ne q p with rfl | ne
    · have own : ((s.go c k).leave c procs).code (.proc q) = k := by
        rw [← State.me_proc on]
        exact Function.update_self ..
      rw [own]
      exact fits waits
    · rw [code _ fun same => ne (Thread.proc.inj same)]
      exact h.parked q (parked q ne waits)
  · rw [code (.sched d) nofun]
    exact h.sched d q (other d q on').2
  · rcases eq_or_ne d c with rfl | ne
    · rw [here] at deep ⊢
      exact h.masked d deep
    · rw [there d ne] at deep ⊢
      exact h.masked d deep

/-- The scheduler picks a process. -/
theorem Inv.pick (h : Inv s) (off : (s.cpu c).proc = none) (runnable : (s.procs p).state = .RUNNABLE) (depth : (s.cpu c).cli_depth = 1)
    (alone : ∀ l, s.lock l = some c ↔ l ∈ [Lock.proctable]) (fits : Fits k 1 [.proctable]) : Inv ((s.go c k).pick c p) := by
  have here : ((s.go c k).pick c p).cpu c = { s.cpu c with proc := some p } := Function.update_self ..
  have there : ∀ d ≠ c, ((s.go c k).pick c p).cpu d = s.cpu d := fun d ne => Function.update_of_ne ne ..
  have code : ∀ T ≠ .sched c, ((s.go c k).pick c p).code T = s.code T := by
    intro T ne
    rw [← State.me_sched off] at ne
    exact Function.update_of_ne ne ..
  have new : ∀ d, (s.cpu d).proc ≠ some p := by
    intro d on
    rw [h.running d p on] at runnable
    cases runnable
  have other : ∀ d q, (((s.go c k).pick c p).cpu d).proc = some q → d = c ∧ q = p ∨ d ≠ c ∧ q ≠ p ∧ (s.cpu d).proc = some q := by
    intro d q on
    rcases eq_or_ne d c with rfl | ne
    · rw [here] at on
      exact .inl ⟨rfl, (Option.some.inj on).symm⟩
    · rw [there d ne] at on
      refine .inr ⟨ne, ?_, on⟩
      rintro rfl
      exact new d on
  have slots : ∀ q ≠ p, ((s.go c k).pick c p).procs q = s.procs q := fun q ne => Procs.set_ne s.procs (fun q => { q with state := .RUNNING }) ne
  have slot : (((s.go c k).pick c p).procs p).state = .RUNNING := congrArg Proc.state (Procs.set_self s.procs p _)
  refine ⟨fun d q on => ?_, fun d e q on₁ on₂ => ?_, fun d => ?_, fun q waits => ?_, fun d q on => ?_, fun d deep => ?_⟩
  · rcases other d q on with ⟨-, rfl⟩ | ⟨-, ne, on⟩
    · exact slot
    · rw [slots q ne]
      exact h.running d q on
  · rcases other d q on₁ with ⟨rfl, rfl⟩ | ⟨-, ne, on₁⟩
    · rcases other e q on₂ with ⟨rfl, -⟩ | ⟨-, ne, -⟩
      · rfl
      · exact absurd rfl ne
    · rcases other e q on₂ with ⟨-, same⟩ | ⟨-, -, on₂⟩
      · exact absurd same ne
      · exact h.alone d e q on₁ on₂
  · rcases eq_or_ne d c with rfl | ne
    · refine ⟨[.proctable], List.nodup_singleton _, alone, ?_⟩
      have me : ((s.go d k).pick d p).me d = .proc p := State.me_proc (by rw [here])
      rw [me, code (.proc p) nofun, here]
      show Fits _ (s.cpu d).cli_depth _
      rw [depth]
      exact h.parked p (.inl runnable)
    · obtain ⟨held, nodup, locks, fits⟩ := h.fit d
      refine ⟨held, nodup, locks, ?_⟩
      have same : ((s.go c k).pick c p).me d = s.me d := State.me_same (by rw [there d ne])
      rw [same, there d ne, code _ (by rw [← State.me_sched off]; exact h.apart ne)]
      exact fits
  · have ne : q ≠ p := by
      rintro rfl
      rw [Proc.Parked, slot] at waits
      rcases waits with off | off <;> cases off
    rw [slots q ne] at waits
    rw [code (.proc q) nofun]
    exact h.parked q waits
  · rcases other d q on with ⟨rfl, rfl⟩ | ⟨ne, -, on⟩
    · have own : ((s.go d k).pick d q).code (.sched d) = k := by
        rw [← State.me_sched off]
        exact Function.update_self ..
      rw [own]
      exact fits
    · rw [code _ fun same => ne (Thread.sched.inj same)]
      exact h.sched d q on
  · rcases eq_or_ne d c with rfl | ne
    · rw [here] at deep ⊢
      exact h.masked d deep
    · rw [there d ne] at deep ⊢
      exact h.masked d deep

/-- A statement that takes a lock, or gives one back. -/
theorem Inv.lock (h : Inv s) {L : Lock → Option C} {n : Nat} {held : List Lock} (others : ∀ d ≠ c, ∀ l, L l = some d ↔ s.lock l = some d)
    (depth : (s.cpu c).cli_depth = n) (nodup : held.Nodup) (locks : ∀ l, L l = some c ↔ l ∈ held) (fits : Fits k n held) :
    Inv { s.go c k with lock := L } := by
  have frame : Frame s c { s.go c k with lock := L } := .own rfl rfl (fun _ _ => rfl) others .rfl
  refine h.moves frame (Function.update_self ..) depth nodup locks fits fun deep => ?_
  exact h.masked c (depth ▸ deep)

omit [DecidableEq C] in
theorem Inv.panic (h : Inv s) (msg : Option String) : Inv { s with panicked := msg } where
  running := h.running
  alone := h.alone
  fit := h.fit
  parked := h.parked
  sched := h.sched
  masked := h.masked

omit [DecidableEq C] in
/-- `acquire` of a free lock. -/
theorem take_locks {l : Lock} {held : List Lock} (free : s.lock l = none) (locks : ∀ l, s.lock l = some c ↔ l ∈ held) :
    (∀ d ≠ c, ∀ l', Function.update s.lock l (some c) l' = some d ↔ s.lock l' = some d) ∧
      ∀ l', Function.update s.lock l (some c) l' = some c ↔ l' ∈ l :: held := by
  refine ⟨fun d ne l' => ?_, fun l' => ?_⟩
  · rcases eq_or_ne l' l with rfl | other
    · rw [Function.update_self, free]
      simp [ne.symm]
    · rw [Function.update_of_ne other]
  · rcases eq_or_ne l' l with rfl | other
    · simp
    · rw [Function.update_of_ne other, locks, List.mem_cons]
      simp [other]

omit [DecidableEq C] in
/-- `release` of a lock that the CPU holds. -/
theorem drop_locks {l : Lock} {held : List Lock} (mine : s.lock l = some c) (nodup : held.Nodup) (locks : ∀ l, s.lock l = some c ↔ l ∈ held) :
    (∀ d ≠ c, ∀ l', Function.update s.lock l none l' = some d ↔ s.lock l' = some d) ∧
      ∀ l', Function.update s.lock l none l' = some c ↔ l' ∈ held.erase l := by
  refine ⟨fun d ne l' => ?_, fun l' => ?_⟩
  · rcases eq_or_ne l' l with rfl | other
    · rw [Function.update_self, mine]
      simp [ne.symm]
    · rw [Function.update_of_ne other]
  · rw [nodup.mem_erase_iff]
    rcases eq_or_ne l' l with rfl | other
    · simp
    · rw [Function.update_of_ne other, locks]
      simp [other]

omit [DecidableEq C] in
theorem Cpu.pushcli_spec (x : Cpu) : x.pushcli.proc = x.proc ∧ x.pushcli.cli_depth = x.cli_depth + 1 ∧
    ((x.cli_depth ≠ 0 → x.irq = false) → x.pushcli.irq = false) := by
  unfold Cpu.pushcli
  split
  case isTrue zero => exact ⟨rfl, by simp [zero], fun _ => rfl⟩
  case isFalse deep => exact ⟨rfl, rfl, fun masked => masked deep⟩

omit [DecidableEq C] in
theorem Cpu.popcli_spec (x : Cpu) : x.popcli.proc = x.proc ∧ x.popcli.cli_depth = x.cli_depth - 1 ∧
    ((x.cli_depth ≠ 0 → x.irq = false) → x.cli_depth - 1 ≠ 0 → x.popcli.irq = false) := by
  unfold Cpu.popcli
  split
  case isTrue one => exact ⟨rfl, by simp [one], fun _ deep => absurd (by rw [one]) deep⟩
  case isFalse => exact ⟨rfl, rfl, fun masked deep => masked (by omega)⟩

/-- A statement of the scheduler. -/
theorem Inv.schedOp (h : Inv s) (off : (s.cpu c).proc = none) {held : List Lock} (nodup : held.Nodup)
    (locks : ∀ l, s.lock l = some c ↔ l ∈ held) (fits : Fits (op :: k) (s.cpu c).cli_depth held) (step : s.schedOp c k op = some t) : Inv t := by
  cases op with
  | enable =>
    obtain ⟨zero, fits⟩ := fits
    obtain rfl := Option.some.inj step
    exact h.cpu rfl (fun _ _ _ => Iff.rfl) rfl nodup locks fits fun deep => absurd zero deep
  | scan i =>
    obtain ⟨one, rfl⟩ := fits
    obtain rfl := Option.some.inj step
    unfold State.scan
    split
    · rename_i p found
      have both := List.find?_some found
      simp only [Bool.decide_and, Bool.and_eq_true, decide_eq_true_eq] at both
      exact h.pick off both.2 one locks ⟨rfl, rfl⟩
    · exact h.table .rfl one nodup locks ⟨rfl, rfl, rfl⟩
  | wakeupAcquired chan =>
    obtain rfl := Option.some.inj step
    exact h.table (.wakeupAcquired _) rfl nodup locks fits
  | _ => cases step

/-- A child is published. -/
theorem Inv.publish (h : Inv s) (on : (s.cpu c).proc = some p) {held : List Lock} (nodup : held.Nodup)
    (locks : ∀ l, s.lock l = some c ↔ l ∈ held) (fits : Fits k (s.cpu c).cli_depth held) {new : ProcId} {th : Bool}
    (step : s.publish c k p new th = some t) : Inv t := by
  unfold State.publish at step
  split at step
  case isFalse => cases step
  case isTrue created =>
  obtain rfl := Option.some.inj step
  have other : p ≠ new := by
    rintro rfl
    rw [h.running c p on] at created
    cases created
  have me : s.me c ≠ .proc new := by
    rw [State.me_proc on]
    exact fun same => other (Thread.proc.inj same)
  refine h.moves (c := c) ⟨rfl, fun _ _ => rfl, fun _ _ _ => Iff.rfl, fun T ne quiet => ?_, fun q state => ?_, fun q waits => ?_⟩ ?_ rfl
    nodup locks fits (h.masked c)
  · have aside : T ≠ .proc new := fun same => quiet new same created
    exact (Function.update_of_ne aside ..).trans (Function.update_of_ne ne ..)
  · have ne : q ≠ new := by
      rintro rfl
      rw [created] at state
      cases state
    exact (congrArg Proc.state (Procs.set_ne s.procs _ ne)).trans state
  · rcases eq_or_ne q new with rfl | ne
    · refine .inr ?_
      change Fits (Function.update (s.go c k).code (.proc q) (release .proctable) (.proc q)) 1 [.proctable]
      rw [Function.update_self]
      exact ⟨rfl, rfl⟩
    · change Proc.Parked (s.procs.set new _ q) at waits
      rw [Procs.set_ne s.procs _ ne] at waits
      exact .inl waits
  · exact (Function.update_of_ne me ..).trans (Function.update_self ..)

/-- A statement of a process. -/
theorem Inv.procOp (h : Inv s) (on : (s.cpu c).proc = some p) {held : List Lock} (nodup : held.Nodup)
    (locks : ∀ l, s.lock l = some c ↔ l ∈ held) (fits : Fits (op :: k) (s.cpu c).cli_depth held)
    (calm : op = .sigcheck → (s.procs p).sig ≠ 0 → held = []) (step : s.procOp c p k op = some t) : Inv t := by
  have running : ∀ f : Proc → Proc, ∀ q ≠ p, s.procs.set p f q = s.procs q := fun f q ne => Procs.set_ne _ f ne
  cases op with
  | yield =>
    obtain ⟨one, rfl, fits⟩ := fits
    obtain rfl := Option.some.inj step
    refine h.leave on one locks (fun q ne state => ?_) (fun q ne waits => ?_) fun _ => one ▸ fits
    · rwa [running _ q ne]
    · rwa [running _ q ne] at waits
  | sleep chan =>
    obtain ⟨one, rfl, fits⟩ := fits
    obtain rfl := Option.some.inj step
    refine h.leave on one locks (fun q ne state => ?_) (fun q ne waits => ?_) fun _ => one ▸ fits
    · rwa [running _ q ne]
    · rwa [running _ q ne] at waits
  | die =>
    obtain ⟨one, rfl⟩ := fits
    obtain rfl := Option.some.inj step
    refine h.leave on one locks (fun q ne state => ?_) (fun q ne waits => ?_) fun waits => ?_
    · rw [Procs.exitproc_ne _ ne, state]
      rfl
    · rw [Procs.exitproc_ne _ ne, Proc.Parked] at waits
      split at waits
      · rename_i asleep
        exact .inr asleep.1
      · exact waits
    · rw [Procs.exitproc_self] at waits
      rcases waits with off | off <;> cases off
  | publish new th =>
    exact h.publish (k := k) on nodup locks fits step
  | eret =>
    obtain ⟨zero, rfl⟩ := fits
    obtain rfl := Option.some.inj step
    exact h.cpu (k := []) rfl (fun _ _ _ => Iff.rfl) rfl nodup locks ⟨zero, rfl⟩ fun deep => absurd zero deep
  | _ =>
    replace step : s.tableOp c p k _ = some t := step
    obtain ⟨⟨procs, k'⟩, ends, rfl⟩ := Option.map_eq_some_iff.1 step
    exact h.table (table_settles ends) rfl nodup locks (table_fits ends fits calm)

/-- **One statement.** -/
theorem Inv.executes (h : Inv s) (next : s.code (s.me c) = op :: k) (calm : s.finds c = true → ∀ l, s.lock l ≠ some c)
    (step : s.op c k op = some t) : Inv t := by
  obtain ⟨held, nodup, locks, fits⟩ := h.fit c
  rw [next] at fits
  have masked := h.masked c
  cases op with
  | pushcli =>
    obtain rfl := Option.some.inj step
    obtain ⟨same, depth, off⟩ := (s.cpu c).pushcli_spec
    exact h.cpu same (fun _ _ _ => Iff.rfl) depth nodup locks fits fun _ => off masked
  | popcli =>
    obtain rfl := Option.some.inj step
    unfold State.popcli
    split
    · exact h.panic _
    · obtain ⟨same, depth, off⟩ := (s.cpu c).popcli_spec
      exact h.cpu same (fun _ _ _ => Iff.rfl) depth nodup locks fits (off masked)
  | take l =>
    replace step : s.take c k l = some t := step
    unfold State.take at step
    split at step
    · rename_i free
      obtain rfl := Option.some.inj step
      obtain ⟨others, mine⟩ := take_locks free locks
      have new : l ∉ held := by
        rw [← locks, free]
        simp
      exact h.lock others rfl (List.nodup_cons.2 ⟨new, nodup⟩) mine fits
    · split at step
      · obtain rfl := Option.some.inj step
        exact h.panic _
      · cases step
  | drop l =>
    obtain rfl := Option.some.inj step
    unfold State.drop
    split
    · rename_i mine
      obtain ⟨others, rest⟩ := drop_locks mine nodup locks
      exact h.lock others rfl (nodup.erase l) rest fits
    · exact h.panic _
  | panic msg =>
    obtain rfl := Option.some.inj step
    exact h.panic _
  | iret =>
    obtain ⟨zero, fits⟩ := fits
    obtain rfl := Option.some.inj step
    exact h.cpu rfl (fun _ _ _ => Iff.rfl) rfl nodup locks fits fun deep => absurd zero deep
  | _ =>
    replace step : s.threadOp c k _ = some t := step
    unfold State.threadOp at step
    split at step
    · rename_i off
      exact h.schedOp off nodup locks fits step
    · rename_i p on
      refine h.procOp on nodup locks fits ?_ step
      intro check signal
      have found : s.finds c = true := by
        rw [State.finds, on, next, check]
        exact decide_eq_true signal
      exact List.eq_nil_iff_forall_not_mem.2 fun l mem => calm found l ((locks l).2 mem)

/-- **One step.** -/
theorem Inv.step (h : Inv s) {l : Label C} (calm : Calm s l) (step : s.step l = some t) : Inv t := by
  unfold State.step at step
  split at step
  · cases step
  cases l with
  | op c =>
    dsimp only at step
    split at step
    · exact h.executes ‹_› calm step
    · cases step
  | work c w =>
    dsimp only at step
    split at step
    · rename_i k next
      obtain rfl := Option.some.inj step
      obtain ⟨held, nodup, locks, fits⟩ := h.fit c
      rw [next] at fits
      exact h.table .rfl rfl nodup locks (w.fits fits)
    · cases step
  | poll c done =>
    dsimp only at step
    split at step
    · rename_i buf k next
      obtain rfl := Option.some.inj step
      obtain ⟨held, nodup, locks, fits⟩ := h.fit c
      rw [next] at fits
      obtain ⟨one, rfl, rest⟩ := fits
      rw [one] at rest
      refine h.table .rfl one nodup locks ?_
      split
      · exact rest
      · exact sleep_fits _ (by decide) ⟨rfl, rfl, rest⟩
    · cases step
  | unlink c got =>
    obtain rfl : got = true := calm
    dsimp only at step
    split at step
    · rename_i k next
      obtain rfl := Option.some.inj step
      obtain ⟨held, nodup, locks, fits⟩ := h.fit c
      rw [next] at fits
      obtain ⟨one, rfl, rest⟩ := fits
      exact h.table .rfl one nodup locks rest
    · cases step
  | call c call =>
    dsimp only at step
    split at step
    · rename_i p on next
      split at step
      · cases step
      · obtain rfl := Option.some.inj step
        obtain ⟨held, nodup, locks, fits⟩ := h.fit c
        rw [next] at fits
        obtain ⟨zero, rfl⟩ := fits
        exact h.table .rfl zero nodup locks call.fits
    · cases step
  | svc c =>
    dsimp only at step
    split at step
    · rename_i p on
      split at step
      · obtain rfl := Option.some.inj step
        obtain ⟨held, nodup, locks, fits⟩ := h.fit c
        have after : Inv { (s.go c (s.code (s.me c))).setCpu c { s.cpu c with irq := false } with user := Function.update s.user p false } :=
          h.cpu rfl (fun _ _ _ => Iff.rfl) rfl nodup locks fits fun _ => rfl
        rw [State.go_self] at after
        exact after
      · cases step
    · cases step
  | irq c w which =>
    replace step : s.interrupt c w which = some t := step
    unfold State.interrupt at step
    split at step
    case isFalse => cases step
    case isTrue on =>
    obtain ⟨held, nodup, locks, fits⟩ := h.fit c
    have zero : (s.cpu c).cli_depth = 0 := by
      by_contra deep
      rw [h.masked c deep] at on
      cases on
    split at step
    · obtain rfl := Option.some.inj step
      exact h.cpu rfl (fun _ _ _ => Iff.rfl) rfl nodup locks (w.fits ⟨zero, fits⟩) fun _ => rfl
    · rename_i next
      obtain rfl := Option.some.inj step
      rw [next] at fits
      obtain ⟨-, rfl⟩ := fits
      exact h.cpu rfl (fun _ _ _ => Iff.rfl) zero nodup locks (w.fits which.fits) fun _ => rfl
    · cases step

omit [DecidableEq C] in
/-- At boot every scheduler is about to start, and the first process waits for one. -/
theorem Inv.boot : Inv (State.boot C) where
  running c p on := by cases on
  alone c d p on := by cases on
  fit c := ⟨[], List.nodup_nil, fun l => by simp [State.boot], rfl, rfl, rfl⟩
  parked p _ := ⟨rfl, rfl⟩
  sched c p on := by cases on
  masked c _ := rfl

/-- The invariant of all calm runs. -/
theorem calm_run (run : (machine C).Via Calm s) : Inv s := by
  apply run.invariant
  · rintro s rfl
    exact .boot
  · exact fun s l t h calm step => h.step calm step

/-- **What a CPU holds at a `cswitch`.** In a run in which no signal check finds a signal with a lock in
hand, and `kalloc` always finds a page, a process that gives up its CPU holds `proctable.lk` and no other
lock, and the depth is 1; one that becomes a zombie is among them. -/
theorem switches_with_ptable (run : (machine C).Via Calm s) (on : (s.cpu c).proc = some p) (next : s.code (.proc p) = op :: k)
    (switches : op.switches = true) : (∀ l, s.lock l = some c ↔ l = .proctable) ∧ (s.cpu c).cli_depth = 1 := by
  obtain ⟨held, -, locks, fits⟩ := (calm_run run).fit c
  rw [State.me_proc on, next] at fits
  have only : (s.cpu c).cli_depth = 1 ∧ held = [.proctable] := by
    cases op with
    | yield => exact ⟨fits.1, fits.2.1⟩
    | sleep chan => exact ⟨fits.1, fits.2.1⟩
    | die => exact fits
    | _ => cases switches
  obtain ⟨one, rfl⟩ := only
  exact ⟨fun l => (locks l).trans List.mem_singleton, one⟩

end Machine

section Reader

/-- So many statements. -/
def ops (n : Nat) : List (Label Unit) := List.replicate n (.op ())

def noWork : Work := ⟨[], rfl⟩

/-- The first process goes to the user, and calls `fork`. -/
def forks : List (Label Unit) :=
  ops 6 ++ [.call () .trapret, .op (), .svc (), .call () .newproc] ++ ops 5 ++ [.call () (.fill 1 1 none none), .op ()] ++
    [.call () (.publish 1 false)] ++ ops 5

/-- Its time is up, and the child calls `read`; it comes to where it sleeps. -/
def reads : List (Label Unit) :=
  forks ++ [.call () .ret] ++ ops 2 ++ [.irq () noWork .timer] ++ ops 7 ++ [.call () (.csread 0)] ++ ops 6

/-- The first process kills it, and the child goes on until it leaves. -/
def kills : List (Label Unit) :=
  reads ++ ops 12 ++ [.svc (), .call () (.kill 1 9)] ++ ops 11 ++ [.call () .ret] ++ ops 2 ++ [.irq () noWork .timer] ++ ops 12 ++
    [.work () noWork] ++ ops 2

/-- One that reads from the console goes to sleep with `proctable.lk` only. -/
theorem reader_sleeps : ∃ s : State Unit, (s.cpu ()).proc = some 1 ∧ (s.code (.proc 1)).head? = some (.sleep (.addr 0)) ∧
    (∀ l, s.lock l = some () ↔ l = .proctable) ∧ (s.cpu ()).cli_depth = 1 := by
  have ran : ((machine Unit).runIf Calm (State.boot Unit) reads).map (fun s => decide ((s.cpu ()).proc = some 1 ∧
      s.code (.proc 1) = .sleep (.addr 0) :: (s.code (.proc 1)).tail)) = some true := by decide +kernel
  obtain ⟨s, run, shown⟩ := Option.map_eq_some_iff.1 ran
  obtain ⟨on, next⟩ := of_decide_eq_true shown
  have via : (machine Unit).Via Calm s := System.Via.runIf (.init rfl) run
  refine ⟨s, on, ?_, switches_with_ptable via on next rfl⟩
  rw [next]
  rfl

/-- One that is killed while it reads from the console comes back from `sleep` with `cs->lk`, finds the
signal, and becomes a zombie with it. -/
theorem killed_reader_keeps_lock : ∃ s : State Unit, (machine Unit).Reach s ∧ (s.cpu ()).proc = some 1 ∧
    (s.code (.proc 1)).head? = some .die ∧ s.lock .cs = some () ∧ (s.cpu ()).cli_depth = 2 := by
  have ran : ((machine Unit).run (State.boot Unit) kills).map (fun s => decide ((s.cpu ()).proc = some 1 ∧
      (s.code (.proc 1)).head? = some .die ∧ s.lock .cs = some () ∧ (s.cpu ()).cli_depth = 2)) = some true := by decide +kernel
  obtain ⟨s, run, shown⟩ := Option.map_eq_some_iff.1 ran
  exact ⟨s, System.Via.run (.init rfl) run, of_decide_eq_true shown⟩

end Reader

end Aarch64Os.Kernel.Cpus
