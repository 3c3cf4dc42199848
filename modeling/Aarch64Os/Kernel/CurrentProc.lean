import Mathlib
import Aarch64Os.Kernel.Reaping

/-!
# Current processes (`cpu->proc`)

The scheduler sets `cpu->proc` when it picks a process and clears it when the process is
back, both under `proctable.lk`, which the process hands to the scheduler of its CPU with
`cswitch`. In between `cpu->proc` points to a process that has left already.
-/

namespace Aarch64Os.Kernel.Tasks
set_option autoImplicit false
open Base

variable {C : Type}

/-- The CPU that holds the lock is the one in the loop of its scheduler, and a `RUNNING`
process has a CPU. -/
structure Current (s : State C) : Prop where
  lock : ∀ c, (s.cpu c).slot.isSome ↔ s.lk = some c
  running : ∀ p, (s.procs p).state = .RUNNING → ∃ c, s.cpu c = .run p

/-- A step of `p` sets nobody `RUNNING`; when it leaves the CPU, the scheduler gets the lock. -/
structure Keeps (s t : State C) (c : C) (p : ProcId) : Prop where
  running : ∀ q, (t.procs q).state = .RUNNING → (s.procs q).state = .RUNNING
  stays : t.cpu = s.cpu ∧ t.lk = s.lk ∨
    s.lk = none ∧ t.lk = some c ∧ t.cpu c = .back p ∧ (∀ d, d ≠ c → t.cpu d = s.cpu d) ∧ (t.procs p).state ≠ .RUNNING

/-- In the middle of a call that does not sleep. -/
def Pc.busy : Pc → Bool
  | .out | .asleep _ | .dead => false
  | _ => true

/-- Nobody leaves the CPU in the middle of a call but by sleeping. -/
def Busy (s : State C) : Prop := ∀ q, (s.pc q).busy → (s.procs q).state = .RUNNING

variable {s t : State C} {c : C} {p : ProcId}

/-- A step that stays on the CPU and changes one slot. -/
theorem Keeps.slot {x : ProcId} {g : Proc → Proc}
    (running : (g (s.procs x)).state = .RUNNING → (s.procs x).state = .RUNNING)
    (procs : t.procs = s.procs.set x g) (cpu : t.cpu = s.cpu) (lk : t.lk = s.lk) : Keeps s t c p := by
  refine ⟨fun q at_q => ?_, .inl ⟨cpu, lk⟩⟩
  rw [procs, Procs.set_apply] at at_q
  split at at_q
  · subst q
    exact running at_q
  · exact at_q

/-- The scheduler on CPU `c` has the lock, and nobody else is in it. -/
theorem Current.alone (h : Current s) {i : Nat} (scan : (s.cpu c).slot = some i) {d : C} (ne : d ≠ c) :
    (s.cpu d).slot = none := by
  have held := (h.lock c).1 (by simp [scan])
  have := (h.lock d).not.2 (by simp [held, Ne.symm ne])
  simpa using this

theorem Current.boot : Current (State.boot : State C) := by
  refine ⟨by simp [State.boot, Cpu.slot], fun p at_p => ?_⟩
  by_cases e : p = initproc
  · simp [State.boot, e] at at_p
  · simp [State.boot, Procs.set_ne _ _ e, Proc.zero] at at_p

section Steps
variable [DecidableEq C]

/-- A step that leaves the CPU. -/
theorem Keeps.leave (free : s.lk = none) {u : State C} (cpu : u.cpu = s.cpu)
    (running : ∀ q, (u.procs q).state = .RUNNING → (s.procs q).state = .RUNNING)
    (left : (u.procs p).state ≠ .RUNNING) : Keeps s (u.cswitch c p) c p := by
  refine ⟨running, .inr ⟨free, rfl, ?_, fun d ne => ?_, left⟩⟩
  · simp [State.cswitch_cpu]
  · simp [State.cswitch_cpu, ne, cpu]

/-- What the process on a CPU does, for that CPU and the lock. -/
theorem Does.keeps {a : Act} (does : Does s c p a t) : Keeps s t c p := by
  have same : ∀ u : State C, u.procs = s.procs → u.cpu = s.cpu → u.lk = s.lk → Keeps s u c p :=
    fun u procs cpu lk => ⟨fun q at_q => by rwa [procs] at at_q, .inl ⟨cpu, lk⟩⟩
  have sleep : s.lk = none → ∀ chan k, Keeps s (s.sleep c p chan k) c p := by
    intro free chan k
    refine .leave free rfl (fun q at_q => ?_) (by simp)
    simp only [State.go_procs, State.set_procs, Procs.set_apply] at at_q
    grind
  have exitproc : ∀ ret, Keeps s (s.exitproc p ret) c p := by
    intro ret
    unfold State.exitproc
    split
    · exact same _ rfl rfl rfl
    · exact .slot (x := p) (g := fun q => { q with ret := ret }) id rfl rfl rfl
  have sigcheck : ∀ pc, Keeps s (s.sigcheck p pc) c p := by
    intro pc
    unfold State.sigcheck State.exitproc
    split
    · split
      · exact .slot (x := p) (g := fun q => { q with sig := 0 }) id rfl rfl rfl
      · exact .slot (x := p) (g := fun q => { q with sig := 0, ret := 1 }) id (by simp) rfl rfl
    · exact same _ rfl rfl rfl
  cases does with
  | yield free pc =>
    refine .leave free rfl (fun q at_q => ?_) (by simp)
    simp only [State.set_procs, Procs.set_apply] at at_q
    grind
  | sleep a free pc => exact sleep free _ _
  | fork th free pc =>
    unfold State.newproc
    split
    · rename_i new procs claim
      obtain ⟨-, rfl⟩ := Procs.claim_some claim
      exact .slot (x := new) (g := fun q => { q with state := .CREATED }) (by simp) rfl rfl rfl
    · exact same s rfl rfl rfl
  | @newpid new th kstack pgt pc =>
    obtain ⟨g, data, eq, -⟩ := s.procs.fill_eq new s.nextpid kstack pgt
    refine .slot (fun at_new => ?_) eq rfl rfl
    rwa [(data (s.procs new)).2] at at_new
  | @publish new th free pc =>
    exact .slot (x := new) (g := fun q => { q with state := .RUNNABLE, parent := some p, th := th || q.th }) (by simp)
      rfl rfl rfl
  | @fail new free pc => exact .slot (x := new) (g := fun _ => Proc.zero) (by simp [Proc.zero]) rfl rfl rfl
  | wait k pc => exact same _ rfl rfl rfl
  | @look k copied free pc =>
    unfold State.look
    split
    · rename_i z found
      exact .slot (x := z) (g := fun _ => Proc.zero) (by simp [Proc.zero]) rfl rfl rfl
    · exact sleep free _ _
  | exit ret pc => exact exitproc ret
  | sigcheck pc => exact sigcheck _
  | woken pc => exact sigcheck _
  | die free pc =>
    refine .leave free rfl (fun q at_q => ?_) (by simp [Procs.exitproc_self])
    by_cases e : q = p
    · simp [e, Procs.exitproc_self] at at_q
    · simp only [State.go_procs, Procs.exitproc_ne _ e] at at_q
      split at at_q
      · simp at at_q
      · exact at_q
  | kill pid sig free pc =>
    unfold State.pget
    split <;> exact same _ rfl rfl rfl
  | @signal target pid sig pc => exact .slot (x := target) (g := fun q => { q with sig := sig }) id rfl rfl rfl
  | @rouse target pid free pc =>
    unfold State.rouse
    split
    · exact .slot (x := target) (g := fun q => { q with state := .RUNNABLE }) (by simp) rfl rfl rfl
    · exact same _ rfl rfl rfl

/-- A step of the process on a CPU. -/
theorem Current.keeps (h : Current s) (run : s.cpu c = .run p) (k : Keeps s t c p) : Current t := by
  rcases k.stays with ⟨cpu, lk⟩ | ⟨free, lk, back, cpu, left⟩
  · constructor
    · rw [cpu, lk]
      exact h.lock
    · rw [cpu]
      exact fun q at_q => h.running q (k.running q at_q)
  · constructor
    · intro d
      by_cases e : d = c
      · simp [e, back, lk, Cpu.slot]
      · have idle := h.lock d
        rw [free] at idle
        simpa [cpu d e, lk, Ne.symm e] using idle
    · intro q at_q
      obtain ⟨d, run'⟩ := h.running q (k.running q at_q)
      have other : d ≠ c := by
        rintro rfl
        obtain rfl : p = q := by simpa [run] using run'
        exact left at_q
      exact ⟨d, (cpu d other).trans run'⟩

theorem Current.step {l : Label C} (h : Current s) (step : s.step l = some t) : Current t := by
  cases State.step_inv step with
  | act run does => exact h.keeps run does.keeps
  | @start c free idle =>
    constructor
    · intro d
      by_cases e : d = c
      · simp [e, Cpu.slot]
      · have := h.lock d
        rw [free] at this
        simpa [Function.update_of_ne e, Ne.symm e] using this
    · intro q at_q
      obtain ⟨d, run⟩ := h.running q at_q
      have other : d ≠ c := fun e => by simp [e, idle] at run
      exact ⟨d, (Function.update_of_ne other ..).trans run⟩
  | @pick c i p scan found =>
    constructor
    · intro d
      by_cases e : d = c
      · simp [State.pick, e, Cpu.slot]
      · simp [State.pick, Function.update_of_ne e, h.alone scan e]
    · intro q at_q
      by_cases e : q = p
      · subst e
        exact ⟨c, by simp [State.pick]⟩
      · simp only [State.pick, State.set_procs, Procs.set_ne _ _ e] at at_q
        obtain ⟨d, run⟩ := h.running q at_q
        have other : d ≠ c := fun e => by simp [e] at run; simp [run, Cpu.slot] at scan
        exact ⟨d, (Function.update_of_ne other ..).trans run⟩
  | @stop c i scan none =>
    constructor
    · intro d
      by_cases e : d = c
      · simp [e, Cpu.slot]
      · simp [Function.update_of_ne e, h.alone scan e]
    · intro q at_q
      obtain ⟨d, run⟩ := h.running q at_q
      have other : d ≠ c := fun e => by simp [e] at run; simp [run, Cpu.slot] at scan
      exact ⟨d, (Function.update_of_ne other ..).trans run⟩
  | wakeup a free =>
    refine ⟨h.lock, fun q at_q => ?_⟩
    rcases s.procs.wakeupAcquired_cases (some (.addr a)) q with same | ⟨-, woken⟩
    · simp only [same] at at_q
      exact h.running q at_q
    · simp [woken] at at_q

/-- A process in the middle of a call stays on its CPU. -/
theorem Does.busy {a : Act} (does : Does s c p a t) (busy : (t.pc p).busy) : t.cpu = s.cpu := by
  have left : ∀ u : State C, u.pc p = .out ∨ (∃ k, u.pc p = .asleep k) ∨ u.pc p = .dead → (u.pc p).busy = false := by
    rintro u (e | ⟨k, e⟩ | e) <;> rw [e] <;> rfl
  cases does with
  | yield free pc =>
    rw [left] at busy
    · simp at busy
    · exact .inl pc
  | sleep a free pc =>
    rw [left] at busy
    · simp at busy
    · exact .inr (.inl ⟨none, by simp [State.sleep, State.go]⟩)
  | fork th free pc =>
    unfold State.newproc
    split <;> rfl
  | @look k copied free pc =>
    unfold State.look at busy ⊢
    split
    · rfl
    · rename_i none
      simp only [none] at busy
      rw [left] at busy
      · simp at busy
      · exact .inr (.inl ⟨some k, by simp [State.sleep, State.go]⟩)
  | exit ret pc =>
    unfold State.exitproc
    split <;> rfl
  | sigcheck pc | woken pc =>
    unfold State.sigcheck State.exitproc
    split
    · split <;> rfl
    · rfl
  | die free pc =>
    rw [left] at busy
    · simp at busy
    · exact .inr (.inr (by simp [State.die, State.go]))
  | kill pid sig free pc =>
    unfold State.pget
    split <;> rfl
  | @rouse target pid free pc =>
    unfold State.rouse
    split <;> rfl
  | newpid | publish | fail | wait | signal => rfl

/-- Who is in the middle of a call is `RUNNING`. -/
theorem Busy.step {l : Label C} (h : Busy s) (b : Books s) (step : s.step l = some t) : Busy t := by
  have same : ∀ u : State C, u.procs = s.procs → u.pc = s.pc → Busy u := by
    intro u procs pc q
    rw [procs, pc]
    exact h q
  cases State.step_inv step with
  | @act c p a _ run does =>
    intro q busy
    have moved := does.moved b run
    by_cases e : q = p
    · subst e
      exact moved.self c (by rw [does.busy busy, run])
    · rcases moved.pc q e with pc | out
      · exact moved.running q e (h q (by rwa [pc] at busy))
      · simp [out, Pc.busy] at busy
  | start => exact same _ rfl rfl
  | @pick c i p scan found =>
    intro q busy
    by_cases e : q = p
    · simp [State.pick, e]
    · simp only [State.pick, State.set_procs, Procs.set_ne _ _ e, Function.update_of_ne e] at busy ⊢
      exact h q busy
  | stop => exact same _ rfl rfl
  | wakeup a free =>
    intro q busy
    rcases s.procs.wakeupAcquired_cases (some (.addr a)) q with eq | ⟨asleep, -⟩
    · simp only [eq]
      exact h q busy
    · simp [h q busy] at asleep

/-- **Current processes are the running ones**, and no slot is freed under a CPU. -/
theorem running_iff_current (h : (procSystem C).Reach s) :
    (s.lk = none →
      (∀ p, (s.procs p).state = .RUNNING ↔ ∃! c, (s.cpu c).proc = some p) ∧
      ∀ c p, (s.cpu c).proc = some p → (s.procs p).state = .RUNNING) ∧
    ∀ l z, Frees s l z → (s.step l).isSome → ∀ c, (s.cpu c).proc ≠ some z := by
  have both : Books s ∧ Current s := by
    refine h.invariant (I := fun s => Books s ∧ Current s) ?_ ?_
    · rintro s rfl
      exact ⟨Books.boot, Current.boot⟩
    · rintro s l t ⟨books, current⟩ - step
      exact ⟨books.step step, current.step step⟩
  obtain ⟨books, current⟩ := both
  have runs : s.lk = none → ∀ c p, (s.cpu c).proc = some p → s.cpu c = .run p := by
    intro free c p proc
    have away := (current.lock c).not.2 (by simp [free])
    cases at_c : s.cpu c with
    | idle | scan => simp [at_c, Cpu.proc] at proc
    | back q => simp [at_c, Cpu.slot] at away
    | run q => simpa [at_c, Cpu.proc] using proc
  have backwards : s.lk = none → ∀ c p, (s.cpu c).proc = some p → (s.procs p).state = .RUNNING :=
    fun free c p proc => books.running c p (runs free c p proc)
  refine ⟨fun free => ⟨fun p => ⟨fun at_p => ?_, fun ⟨c, proc, _⟩ => backwards free c p proc⟩, backwards free⟩, ?_⟩
  · obtain ⟨c, run⟩ := current.running p at_p
    refine ⟨c, by simp [run, Cpu.proc], fun d proc => ?_⟩
    exact books.single d c p (runs free d p proc) run
  · intro l z frees enabled c proc
    obtain ⟨t, step⟩ := Option.isSome_iff_exists.1 enabled
    cases State.step_inv step with
    | @act d p a _ run does =>
      cases does with
      | @look k copied free pc =>
        obtain ⟨q, k, -, -, found⟩ := frees
        have := backwards free c z proc
        simp [reapable_some found] at this
      | @fail new free pc =>
        obtain ⟨q, run', copying⟩ := frees
        have := backwards free c z proc
        simp [books.child q z (by rw [copying]; rfl)] at this
      | _ => exact frees
    | _ => exact frees

end Steps

/-- `initproc` is about to reap its child. -/
theorem running_iff_current_reaping : ∃ s : State (Fin 1), Frees s (.act 0 (.look true)) 1 ∧
    (∀ c, (s.cpu c).proc ≠ some 1) ∧ ∃! c, (s.cpu c).proc = some initproc := by
  have init : (procSystem (Fin 1)).Reach State.boot := .init rfl
  obtain ⟨s, run, free, frees, enabled, running⟩ : ∃ s : State (Fin 1),
      (procSystem (Fin 1)).run State.boot (oneChild ++ [.act 0 .die, .scan 0, .start 0, .scan 0, .act 0 .sigcheck]) = some s ∧
      s.lk = none ∧ Frees s (.act 0 (.look true)) 1 ∧ (s.step (.act 0 (.look true))).isSome ∧
      (s.procs initproc).state = .RUNNING :=
    ⟨_, rfl, by decide +kernel, ⟨initproc, .wait false, by decide +kernel, by decide +kernel, by decide +kernel⟩,
      by decide +kernel, by decide +kernel⟩
  obtain ⟨current, freed⟩ := running_iff_current (init.run run)
  exact ⟨s, frees, freed _ _ frees enabled, ((current free).1 initproc).1 running⟩

end Aarch64Os.Kernel.Tasks
