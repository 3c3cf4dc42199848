import Mathlib
import Aarch64Os.Kernel.CurrentProc

/-!
# Exit and reaping (`exitproc`, `wait`, `waitpid`)

The accounts of a run: who has exited with which value, who has been reaped by whom and
with which result. A slot is reused after it has been reaped, its number never is.
-/

namespace Aarch64Os.Kernel.Tasks
set_option autoImplicit false
open Base

/-- The process that has exited. -/
def Event.exited : Event → Option Int
  | .exit pid _ => some pid
  | _ => none

/-- The process that has been reaped. -/
def Event.reaped : Event → Option Int
  | .reap _ _ child _ _ _ => some child.pid
  | _ => none

/-- Who has exited, latest first. -/
def exits (log : List Event) : List Int := log.filterMap Event.exited

/-- Who has been reaped, latest first. -/
def reaps (log : List Event) : List Int := log.filterMap Event.reaped

section Log
variable (log : List Event) (pid ret : Int) (caller : ProcId) (k : Wait) (child : Proc) (copied : Bool) (result : Int)
  (stored : Option Int)

@[simp] theorem exits_exit : exits (.exit pid ret :: log) = pid :: exits log := List.filterMap_cons_some rfl

@[simp] theorem exits_reap : exits (.reap caller k child copied result stored :: log) = exits log :=
  List.filterMap_cons_none rfl

@[simp] theorem exits_kill : exits (.kill pid child :: log) = exits log := List.filterMap_cons_none rfl

@[simp] theorem reaps_exit : reaps (.exit pid ret :: log) = reaps log := List.filterMap_cons_none rfl

@[simp] theorem reaps_reap : reaps (.reap caller k child copied result stored :: log) = child.pid :: reaps log :=
  List.filterMap_cons_some rfl

@[simp] theorem reaps_kill : reaps (.kill pid child :: log) = reaps log := List.filterMap_cons_none rfl

variable {log pid ret}

theorem mem_exits (mem : Event.exit pid ret ∈ log) : pid ∈ exits log := List.mem_filterMap.2 ⟨_, mem, rfl⟩

end Log

/-- A process that runs, or will. -/
def living : ProcState → Bool
  | .RUNNABLE | .RUNNING | .SLEEPING => true
  | _ => false

variable {C : Type}

/-- `q` is a zombie, or about to become one. -/
def State.Leaving (s : State C) (q : ProcId) : Prop := (s.procs q).state = .ZOMBIE ∨ s.pc q = .exiting

/-- What the call that has reaped `child` returns and stores: the number and the exit value,
or -1 when there was a pointer and `copyout` failed. -/
def Reaped (caller : ProcId) (k : Wait) (child : Proc) (copied : Bool) (result : Int) (stored : Option Int) (ret : Int) : Prop :=
  result = (if k.status ∧ copied = false then -1 else child.pid) ∧
  stored = (if k.status ∧ copied then some ret else none) ∧
  ∀ status, k = .wait status → child.parent = some caller

/-- Numbers are unique and never given twice; who leaves has its exit on record, and nobody
who has been reaped is still there. -/
structure Ledger (s : State C) : Prop where
  pids : ∀ p q, (s.procs p).pid = (s.procs q).pid → (s.procs p).pid = 0 ∨ p = q
  bound : ∀ p, (s.procs p).pid < s.nextpid
  next : 0 < s.nextpid
  leaving : ∀ q, s.Leaving q → .exit (s.procs q).pid (s.procs q).ret ∈ s.log
  exited : ∀ n ∈ exits s.log, n ≠ 0 ∧ n < s.nextpid ∧ ∀ q, (s.procs q).pid = n → s.Leaving q
  once : (exits s.log).Nodup
  reaped : ∀ n ∈ reaps s.log, n ∈ exits s.log ∧ ∀ q, (s.procs q).pid ≠ n
  single : (reaps s.log).Nodup
  results : ∀ caller k child copied result stored, .reap caller k child copied result stored ∈ s.log →
    .exit child.pid child.ret ∈ s.log ∧ Reaped caller k child copied result stored child.ret

/-- Nobody exits and nobody is reaped; a slot keeps its number, gives it back or gets the next one. -/
structure Quiet (s t : State C) : Prop where
  pid : ∃ x, ∀ q, (t.procs q).pid = (s.procs q).pid ∨ (t.procs q).pid = 0 ∨
    q = x ∧ (t.procs q).pid = s.nextpid ∧ s.nextpid < t.nextpid
  next : s.nextpid ≤ t.nextpid
  leaving : ∀ q, t.Leaving q ↔ s.Leaving q
  kept : ∀ q, s.Leaving q → (t.procs q).pid = (s.procs q).pid ∧ (t.procs q).ret = (s.procs q).ret
  log : t.log = s.log ∨ ∃ pid target, t.log = .kill pid target :: s.log

/-- `initproc` lives, and a parent of the living lives. -/
structure Lineage (s : State C) : Prop where
  first : (s.procs initproc).pid = 0 ∧ living (s.procs initproc).state
  parents : ∀ q x, living (s.procs q).state → (s.procs q).parent = some x → living (s.procs x).state

/-- Nobody dies, and children are born to the living. -/
structure Kin (s t : State C) : Prop where
  alive : ∀ q, living (s.procs q).state → living (t.procs q).state ∧ (t.procs q).pid = (s.procs q).pid
  born : ∀ q, living (t.procs q).state → living (s.procs q).state ∧ (t.procs q).parent = (s.procs q).parent ∨
    ∃ x, living (s.procs x).state ∧ (t.procs q).parent = some x

section Accounts
variable {s t : State C} {c : C} {p : ProcId}

/-- Numbers after a quiet step. -/
theorem Quiet.bound (h : Ledger s) (quiet : Quiet s t) (q : ProcId) : (t.procs q).pid < t.nextpid := by
  obtain ⟨x, pid⟩ := quiet.pid
  have old := h.bound q
  have next := h.next
  have grows := quiet.next
  rcases pid q with same | zero | ⟨-, fresh, less⟩ <;> omega

/-- A quiet step leaves the accounts as they are. -/
theorem Ledger.quiet (h : Ledger s) (quiet : Quiet s t) : Ledger t := by
  obtain ⟨x, pid⟩ := quiet.pid
  have exited : exits t.log = exits s.log := by
    rcases quiet.log with same | ⟨pid, target, more⟩
    · rw [same]
    · simp [more]
  have reaped : reaps t.log = reaps s.log := by
    rcases quiet.log with same | ⟨pid, target, more⟩
    · rw [same]
    · simp [more]
  have exits : ∀ n ret, Event.exit n ret ∈ t.log ↔ Event.exit n ret ∈ s.log := by
    intro n ret
    rcases quiet.log with same | ⟨pid, target, more⟩
    · rw [same]
    · simp [more]
  -- a number of the past is not the next one
  have old : ∀ q n, n ≠ 0 → n < s.nextpid → (t.procs q).pid = n → (s.procs q).pid = n := by
    intro q n pos less eq
    rcases pid q with same | zero | ⟨-, fresh, -⟩ <;> omega
  constructor
  · intro p q eq
    by_cases zero : (t.procs p).pid = 0
    · exact .inl zero
    · have at_p := pid p
      have at_q := pid q
      have bound_p := h.bound p
      have bound_q := h.bound q
      have pids := h.pids p q
      grind
  · exact quiet.bound h
  · exact lt_of_lt_of_le h.next quiet.next
  · intro q leaving
    have before := (quiet.leaving q).1 leaving
    obtain ⟨same, ret⟩ := quiet.kept q before
    rw [same, ret, exits]
    exact h.leaving q before
  · rw [exited]
    intro n mem
    obtain ⟨pos, less, gone⟩ := h.exited n mem
    refine ⟨pos, lt_of_lt_of_le less quiet.next, fun q eq => ?_⟩
    exact (quiet.leaving q).2 (gone q (old q n pos less eq))
  · rw [exited]
    exact h.once
  · rw [reaped, exited]
    intro n mem
    obtain ⟨before, gone⟩ := h.reaped n mem
    obtain ⟨pos, less, -⟩ := h.exited n before
    exact ⟨before, fun q eq => gone q (old q n pos less eq)⟩
  · rw [reaped]
    exact h.single
  · intro caller k child copied result stored mem
    rw [exits]
    refine h.results caller k child copied result stored ?_
    rcases quiet.log with same | ⟨pid, target, more⟩
    · rwa [same] at mem
    · simpa [more] using mem

/-- The exit of `p` goes on record. -/
theorem Ledger.exit (h : Ledger s) (stays : ¬ s.Leaving p) {ret : Int} (pos : (s.procs p).pid ≠ 0)
    (slot : (t.procs p).pid = (s.procs p).pid ∧ (t.procs p).ret = ret) (others : ∀ q, q ≠ p → t.procs q = s.procs q)
    (next : t.nextpid = s.nextpid) (leaves : t.Leaving p) (rest : ∀ q, q ≠ p → (t.Leaving q ↔ s.Leaving q))
    (log : t.log = .exit (s.procs p).pid ret :: s.log) : Ledger t := by
  have pid : ∀ q, (t.procs q).pid = (s.procs q).pid := by
    intro q
    by_cases e : q = p
    · rw [e, slot.1]
    · rw [others q e]
  have fresh : (s.procs p).pid ∉ exits s.log := fun mem => stays ((h.exited _ mem).2.2 p rfl)
  have exited : exits t.log = (s.procs p).pid :: exits s.log := by simp [log]
  have reaped : reaps t.log = reaps s.log := by simp [log]
  constructor
  · intro q r
    rw [pid, pid]
    exact h.pids q r
  · intro q
    rw [pid, next]
    exact h.bound q
  · rw [next]
    exact h.next
  · intro q leaving
    by_cases e : q = p
    · rw [e, slot.1, slot.2, log]
      exact List.mem_cons_self
    · rw [others q e, log]
      exact List.mem_cons_of_mem _ (h.leaving q ((rest q e).1 leaving))
  · rw [exited, next]
    intro n mem
    rcases List.mem_cons.1 mem with rfl | mem
    · refine ⟨pos, h.bound p, fun q eq => ?_⟩
      rw [pid] at eq
      rcases h.pids q p eq with zero | rfl
      · omega
      · exact leaves
    · obtain ⟨pos, less, gone⟩ := h.exited n mem
      refine ⟨pos, less, fun q eq => ?_⟩
      rw [pid] at eq
      by_cases e : q = p
      · rwa [e]
      · exact (rest q e).2 (gone q eq)
  · rw [exited]
    exact List.nodup_cons.2 ⟨fresh, h.once⟩
  · rw [reaped, exited]
    intro n mem
    obtain ⟨before, gone⟩ := h.reaped n mem
    refine ⟨List.mem_cons_of_mem _ before, fun q eq => ?_⟩
    rw [pid] at eq
    exact gone q eq
  · rw [reaped]
    exact h.single
  · intro caller k child copied result stored mem
    rw [log] at mem ⊢
    obtain ⟨exit, results⟩ := h.results caller k child copied result stored (by simpa using mem)
    exact ⟨List.mem_cons_of_mem _ exit, results⟩

/-- The zombie `z` is reaped, by the call that finds it. -/
theorem Ledger.reap (h : Ledger s) (b : Busy s) {z : ProcId} {k : Wait} (found : reapable s.procs p k = some z)
    (at_p : s.pc p = .loop k) (copied : Bool) : Ledger (s.reap p z k copied) := by
  have dead := reapable_some found
  have awaited : k.awaits p (s.procs z) := by
    have := Procs.find_some found
    simp only [Bool.decide_and, Bool.and_eq_true, decide_eq_true_eq] at this
    simpa using this.1
  have exit := h.leaving z (.inl dead)
  obtain ⟨pos, less, -⟩ := h.exited _ (mem_exits exit)
  have fresh : (s.procs z).pid ∉ reaps s.log := fun mem => (h.reaped _ mem).2 z rfl
  set t := s.reap p z k copied with t_eq
  have procs : t.procs = s.procs.set z fun _ => Proc.zero := rfl
  have log : t.log = .reap p k (s.procs z) copied (if k.status && !copied then -1 else (s.procs z).pid)
      (if k.status && copied then some (s.procs z).ret else none) :: s.log := rfl
  have pid : ∀ q, q ≠ z ∧ t.procs q = s.procs q ∨ q = z ∧ (t.procs q).pid = 0 := by
    intro q
    rw [procs, Procs.set_apply]
    split
    · exact .inr ⟨‹_›, rfl⟩
    · exact .inl ⟨‹_›, rfl⟩
  have leaving : ∀ q, t.Leaving q ↔ q ≠ z ∧ s.Leaving q := by
    intro q
    have pc : t.pc q = if q = p then .out else s.pc q := State.go_pc ..
    have running := b q
    simp only [State.Leaving, pc, procs, Procs.set_apply]
    by_cases e : q = z
    · have busy := b q
      subst e
      simp [Proc.zero]
      grind [Pc.busy]
    · by_cases e' : q = p
      · subst e'
        simp [e, at_p]
      · simp [e, e']
  constructor
  · intro q r eq
    have pids := h.pids q r
    have at_q := pid q
    have at_r := pid r
    grind
  · intro q
    have bound := h.bound q
    rcases pid q with ⟨-, same⟩ | ⟨-, zero⟩
    · rwa [same]
    · rw [zero]
      exact h.next
  · exact h.next
  · intro q gone
    obtain ⟨ne, gone⟩ := (leaving q).1 gone
    rw [procs, Procs.set_ne _ _ ne, log]
    exact List.mem_cons_of_mem _ (h.leaving q gone)
  · rw [log, exits_reap]
    intro n mem
    obtain ⟨pos, less, gone⟩ := h.exited n mem
    refine ⟨pos, less, fun q eq => (leaving q).2 ?_⟩
    rcases pid q with ⟨ne, same⟩ | ⟨-, zero⟩
    · rw [same] at eq
      exact ⟨ne, gone q eq⟩
    · omega
  · rw [log, exits_reap]
    exact h.once
  · rw [log, exits_reap, reaps_reap]
    intro n mem
    rcases List.mem_cons.1 mem with rfl | mem
    · refine ⟨mem_exits exit, fun q eq => ?_⟩
      rcases pid q with ⟨ne, same⟩ | ⟨-, zero⟩
      · rw [same] at eq
        rcases h.pids q z eq with zero | rfl
        · omega
        · exact ne rfl
      · omega
    · obtain ⟨before, gone⟩ := h.reaped n mem
      refine ⟨before, fun q eq => ?_⟩
      rcases pid q with ⟨-, same⟩ | ⟨-, zero⟩
      · rw [same] at eq
        exact gone q eq
      · have := h.exited n before
        omega
  · rw [log, reaps_reap]
    exact List.nodup_cons.2 ⟨fresh, h.single⟩
  · intro caller k' child copied' result stored mem
    rw [log] at mem ⊢
    rcases List.mem_cons.1 mem with eq | mem
    · obtain ⟨rfl, rfl, rfl, rfl, rfl, rfl⟩ := Event.reap.inj eq
      refine ⟨List.mem_cons_of_mem _ exit, ?_, ?_, ?_⟩
      · cases k'.status <;> cases copied' <;> simp
      · cases k'.status <;> cases copied' <;> simp
      · rintro status rfl
        simpa [Wait.awaits] using awaited
    · obtain ⟨exit, results⟩ := h.results caller k' child copied' result stored mem
      exact ⟨List.mem_cons_of_mem _ exit, results⟩

/-- A quiet step that changes one slot. -/
theorem Quiet.slot {x : ProcId} {g : Proc → Proc} (procs : t.procs = s.procs.set x g)
    (exiting : ∀ q, t.pc q = .exiting ↔ s.pc q = .exiting)
    (zombie : (g (s.procs x)).state = .ZOMBIE ↔ (s.procs x).state = .ZOMBIE)
    (pid : (g (s.procs x)).pid = (s.procs x).pid ∨ (g (s.procs x)).pid = 0 ∨
      (g (s.procs x)).pid = s.nextpid ∧ s.nextpid < t.nextpid)
    (kept : s.Leaving x → (g (s.procs x)).pid = (s.procs x).pid ∧ (g (s.procs x)).ret = (s.procs x).ret)
    (next : s.nextpid ≤ t.nextpid) (log : t.log = s.log ∨ ∃ pid target, t.log = .kill pid target :: s.log) : Quiet s t := by
  refine ⟨⟨x, fun q => ?_⟩, next, fun q => ?_, fun q leaving => ?_, log⟩
  · by_cases e : q = x
    · subst e
      simpa [procs] using pid
    · exact .inl (by rw [procs, Procs.set_ne _ _ e])
  · by_cases e : q = x
    · subst e
      simp [State.Leaving, procs, exiting, zombie]
    · simp [State.Leaving, procs, Procs.set_ne _ _ e, exiting]
  · by_cases e : q = x
    · subst e
      simpa [procs] using kept leaving
    · simp [procs, Procs.set_ne _ _ e]

/-- A quiet step that changes no slot. -/
theorem Quiet.same (procs : t.procs = s.procs) (exiting : ∀ q, t.pc q = .exiting ↔ s.pc q = .exiting)
    (next : t.nextpid = s.nextpid) (log : t.log = s.log) : Quiet s t := by
  refine .slot (x := initproc) (g := id) (by simp [procs, Procs.set]) exiting Iff.rfl (.inl rfl) (fun _ => ⟨rfl, rfl⟩) ?_ (.inl log)
  rw [next]

/-- Neither where it was nor where it goes is `exitproc`. -/
theorem go_exiting (s : State C) {x : Pc} (before : s.pc p ≠ .exiting) (after : x ≠ .exiting) (q : ProcId) :
    (s.go p x).pc q = .exiting ↔ s.pc q = .exiting := by
  rw [State.go_pc]
  split
  · subst q
    simp [before, after]
  · rfl

/-- `exitproc`, for a process that has not been there yet. -/
theorem Ledger.exitproc (h : Ledger s) (running : (s.procs p).state = .RUNNING) (at_p : s.pc p ≠ .exiting) (ret : Int) :
    Ledger (s.exitproc p ret) := by
  unfold State.exitproc
  split
  · exact h.quiet (.same rfl (fun _ => Iff.rfl) rfl rfl)
  · rename_i pos
    refine h.exit (p := p) ?_ pos ⟨?_, ?_⟩ ?_ rfl (.inr ?_) ?_ rfl
    · simp [State.Leaving, running, at_p]
    · simp
    · simp
    · intro q ne
      simp [Procs.set_ne _ _ ne]
    · simp [State.go]
    · intro q ne
      simp [State.Leaving, Procs.set_ne _ _ ne, State.go_pc, ne]

theorem Ledger.sigcheck (h : Ledger s) (running : (s.procs p).state = .RUNNING) (at_p : s.pc p ≠ .exiting) {pc : Pc}
    (after : pc ≠ .exiting) : Ledger (s.sigcheck p pc) := by
  unfold State.sigcheck
  split
  · have cleared : Ledger (s.set p fun q => { q with sig := 0 }) := by
      exact h.quiet (.slot (x := p) (g := fun q => { q with sig := 0 }) rfl (fun _ => Iff.rfl) Iff.rfl (.inl rfl)
        (fun _ => ⟨rfl, rfl⟩) le_rfl (.inl rfl))
    exact cleared.exitproc (by simpa using running) at_p 1
  · exact h.quiet (.same rfl (go_exiting s at_p after) rfl rfl)

theorem Lineage.kin (h : Lineage s) (kin : Kin s t) : Lineage t := by
  refine ⟨?_, fun q x alive parent => ?_⟩
  · obtain ⟨alive, pid⟩ := kin.alive initproc h.first.2
    exact ⟨pid.trans h.first.1, alive⟩
  · rcases kin.born q alive with ⟨before, same⟩ | ⟨y, lives, eq⟩
    · rw [same] at parent
      exact (kin.alive x (h.parents q x before parent)).1
    · obtain rfl : y = x := by simpa [eq] using parent
      exact (kin.alive y lives).1

/-- A step that changes one slot. -/
theorem Kin.slot {x : ProcId} {g : Proc → Proc} (procs : t.procs = s.procs.set x g)
    (alive : living (s.procs x).state → living (g (s.procs x)).state ∧ (g (s.procs x)).pid = (s.procs x).pid)
    (born : living (g (s.procs x)).state → living (s.procs x).state ∧ (g (s.procs x)).parent = (s.procs x).parent ∨
      ∃ y, living (s.procs y).state ∧ (g (s.procs x)).parent = some y) : Kin s t := by
  constructor <;> intro q lives <;> by_cases e : q = x
  · subst e
    simpa [procs] using alive lives
  · simpa [procs, Procs.set_ne _ _ e] using lives
  · subst e
    rw [procs, Procs.set_self] at lives ⊢
    exact born lives
  · rw [procs, Procs.set_ne _ _ e] at lives ⊢
    exact .inl ⟨lives, rfl⟩

theorem Kin.same (procs : t.procs = s.procs) : Kin s t := by
  constructor <;> rw [procs]
  · exact fun q lives => ⟨lives, rfl⟩
  · exact fun q lives => .inl ⟨lives, rfl⟩

theorem Kin.exitproc (p : ProcId) (ret : Int) : Kin s (s.exitproc p ret) := by
  unfold State.exitproc
  split
  · exact .same rfl
  · exact .slot (x := p) (g := fun q => { q with ret := ret }) rfl (fun h => ⟨h, rfl⟩) (fun h => .inl ⟨h, rfl⟩)

theorem Kin.sigcheck (p : ProcId) (pc : Pc) : Kin s (s.sigcheck p pc) := by
  unfold State.sigcheck State.exitproc
  split
  · split
    · exact .slot (x := p) (g := fun q => { q with sig := 0 }) rfl (fun h => ⟨h, rfl⟩) (fun h => .inl ⟨h, rfl⟩)
    · exact .slot (x := p) (g := fun q => { q with sig := 0, ret := 1 }) (by simp) (fun h => ⟨h, rfl⟩) (fun h => .inl ⟨h, rfl⟩)
  · exact .same rfl

end Accounts

section Steps
variable [DecidableEq C] {s t : State C} {c : C} {p : ProcId}

/-- `sleep` is quiet. -/
theorem Quiet.sleep (running : (s.procs p).state = .RUNNING) (at_p : s.pc p ≠ .exiting) (chan : Chan) (k : Option Wait) :
    Quiet s (s.sleep c p chan k) := by
  refine .slot (x := p) (g := fun q => { q with chan := some chan, state := .SLEEPING }) rfl ?_ ?_ (.inl rfl)
    (fun _ => ⟨rfl, rfl⟩) le_rfl (.inl rfl)
  · exact go_exiting (s.set p _) at_p (by simp)
  · simp [running]

/-- The rest of `exitproc` makes a zombie of a process whose exit is on record. -/
theorem Quiet.die (at_p : s.pc p = .exiting) : Quiet s (s.die c p) := by
  have procs : (s.die c p).procs = s.procs.exitproc p := rfl
  have data : ∀ q, ((s.procs.exitproc p) q).pid = (s.procs q).pid ∧ ((s.procs.exitproc p) q).ret = (s.procs q).ret := by
    intro q
    by_cases e : q = p
    · simp [e, Procs.exitproc_self]
    · simp [Procs.exitproc_ne _ e]
  refine ⟨⟨p, fun q => .inl (data q).1⟩, le_rfl, fun q => ?_, fun q _ => data q, .inl rfl⟩
  have pc : (s.die c p).pc q = if q = p then .dead else s.pc q := State.go_pc ..
  by_cases e : q = p
  · simp [State.Leaving, procs, e, Procs.exitproc_self, at_p]
  · simp only [State.Leaving, procs, pc, Procs.exitproc_ne _ e, e]
    grind

/-- What the process on a CPU does, for the accounts. -/
theorem Does.ledger {a : Act} (h : Ledger s) (b : Books s) (busy : Busy s) (run : s.cpu c = .run p)
    (does : Does s c p a t) : Ledger t := by
  have running := b.running c p run
  -- the slot that is being filled does not leave
  have child : ∀ new, (s.pc p).child = some new → ¬ s.Leaving new := by
    rintro new filling (zombie | exiting)
    · simp [b.child p new filling] at zombie
    · have := busy new (by rw [exiting]; rfl)
      simp [b.child p new filling] at this
  cases does with
  | yield free pc =>
    refine h.quiet (.slot (x := p) (g := fun q => { q with state := .RUNNABLE }) rfl (fun _ => Iff.rfl) ?_ (.inl rfl)
      (fun _ => ⟨rfl, rfl⟩) le_rfl (.inl rfl))
    simp [running]
  | sleep a free pc => exact h.quiet (.sleep running (by simp [pc]) _ _)
  | fork th free pc =>
    unfold State.newproc
    split
    · rename_i new procs claim
      obtain ⟨unused, rfl⟩ := Procs.claim_some claim
      refine h.quiet (.slot (x := new) (g := fun q => { q with state := .CREATED }) rfl ?_ ?_ (.inl rfl)
        (fun _ => ⟨rfl, rfl⟩) le_rfl (.inl rfl))
      · exact go_exiting s (by simp [pc]) (by simp)
      · simp [unused]
    · exact h
  | @newpid new th kstack pgt pc =>
    have filling : (s.pc p).child = some new := by rw [pc]; rfl
    refine h.quiet (.slot (s.procs.fill_snd new s.nextpid kstack pgt) ?_ Iff.rfl (.inr (.inr ⟨rfl, ?_⟩))
      (fun leaving => absurd leaving (child new filling)) ?_ (.inl rfl))
    · have goes : ∀ got : Option ProcId, (if got.isSome then Pc.copying new th else .out) ≠ .exiting := by
        rintro (_ | _) <;> simp
      exact go_exiting s (by simp [pc]) (goes _)
    · exact Int.lt_succ _
    · exact le_of_lt (Int.lt_succ _)
  | @publish new th free pc =>
    have filling : (s.pc p).child = some new := by rw [pc]; rfl
    refine h.quiet (.slot (x := new) (g := fun q => { q with state := .RUNNABLE, parent := some p, th := th || q.th }) rfl
      ?_ ?_ (.inl rfl) (fun _ => ⟨rfl, rfl⟩) le_rfl (.inl rfl))
    · intro q
      have at_new := child new filling
      have first := go_exiting (s.set new fun q => { q with state := .RUNNABLE, parent := some p, th := th || q.th })
        (p := p) (x := .out) (by simp [pc]) (by simp)
      refine (go_exiting _ (fun e => at_new (.inr ?_)) (by simp) q).trans (first q)
      exact (first new).1 e
    · simp [b.child p new filling]
  | @fail new free pc =>
    have filling : (s.pc p).child = some new := by rw [pc]; rfl
    refine h.quiet (.slot (x := new) (g := fun _ => Proc.zero) rfl ?_ ?_ (.inr (.inl rfl))
      (fun leaving => absurd leaving (child new filling)) le_rfl (.inl rfl))
    · exact go_exiting s (by simp [pc]) (by simp)
    · simp [b.child p new filling, Proc.zero]
  | wait k pc => exact h.quiet (.same rfl (go_exiting s (by simp [pc]) (by simp)) rfl rfl)
  | @look k copied free pc =>
    unfold State.look
    split
    · exact h.reap busy ‹_› pc copied
    · exact h.quiet (.sleep running (by simp [pc]) _ _)
  | exit ret pc => exact h.exitproc running (by simp [pc]) ret
  | sigcheck pc => exact h.sigcheck running (by simp [pc]) (by simp)
  | @woken k pc =>
    refine h.sigcheck running (by simp [pc]) ?_
    cases k <;> simp
  | die free pc => exact h.quiet (.die pc)
  | kill pid sig free pc =>
    unfold State.pget
    split
    · exact h.quiet (.same rfl (go_exiting s (by simp [pc]) (by simp)) rfl rfl)
    · exact h
  | @signal target pid sig pc =>
    refine h.quiet (.slot (x := target) (g := fun q => { q with sig := sig }) rfl ?_ Iff.rfl (.inl rfl)
      (fun _ => ⟨rfl, rfl⟩) le_rfl (.inr ⟨_, _, rfl⟩))
    exact go_exiting (s.set target _) (by simp [pc]) (by simp)
  | @rouse target pid free pc =>
    unfold State.rouse
    split
    · rename_i asleep
      refine h.quiet (.slot (x := target) (g := fun q => { q with state := .RUNNABLE }) rfl ?_ ?_ (.inl rfl)
        (fun _ => ⟨rfl, rfl⟩) le_rfl (.inr ⟨_, _, rfl⟩))
      · exact go_exiting (s.set target _) (by simp [pc]) (by simp)
      · simp [asleep]
    · exact h.quiet (.same rfl (go_exiting s (by simp [pc]) (by simp)) rfl rfl)

theorem Ledger.step {l : Label C} (h : Ledger s) (b : Books s) (busy : Busy s) (step : s.step l = some t) : Ledger t := by
  cases State.step_inv step with
  | act run does => exact does.ledger h b busy run
  | start free idle => exact h.quiet (.same rfl (fun _ => Iff.rfl) rfl rfl)
  | @pick c i p scan found =>
    have runnable := next_runnable found
    let picked : Proc → Proc := fun q => { q with state := .RUNNING, chan := if (s.pc p).sleeps then none else q.chan }
    refine h.quiet (.slot (x := p) (g := picked) rfl (fun q => ?_) ?_ (.inl rfl) (fun _ => ⟨rfl, rfl⟩) le_rfl (.inl rfl))
    · by_cases e : q = p
      · subst e
        simp only [State.pick, Function.update_self]
        cases s.pc q <;> simp [Pc.resume]
      · simp [State.pick, Function.update_of_ne e]
    · simp [picked, runnable]
  | stop scan none => exact h.quiet (.same rfl (fun _ => Iff.rfl) rfl rfl)
  | wakeup a free =>
    have woken : ∀ q, (s.procs.wakeupAcquired (some (.addr a)) q).pid = (s.procs q).pid ∧
        (s.procs.wakeupAcquired (some (.addr a)) q).ret = (s.procs q).ret ∧
        ((s.procs.wakeupAcquired (some (.addr a)) q).state = .ZOMBIE ↔ (s.procs q).state = .ZOMBIE) := by
      intro q
      rcases s.procs.wakeupAcquired_cases (some (.addr a)) q with same | ⟨asleep, woken⟩
      · simp [same]
      · simp [woken, asleep]
    refine h.quiet ⟨⟨initproc, fun q => .inl (woken q).1⟩, le_rfl, fun q => ?_, fun q _ => ⟨(woken q).1, (woken q).2.1⟩, .inl rfl⟩
    exact or_congr_left (woken q).2.2

/-- What the process on a CPU does for the family, unless it dies. -/
theorem Does.kin {a : Act} (b : Books s) (run : s.cpu c = .run p) (alive : a ≠ .die) (does : Does s c p a t) : Kin s t := by
  have running := b.running c p run
  have asleep : ∀ chan k, Kin s (s.sleep c p chan k) := by
    intro chan k
    exact .slot (x := p) (g := fun q => { q with chan := some chan, state := .SLEEPING }) rfl (by simp [living])
      (by simp [running, living])
  cases does with
  | yield free pc =>
    exact .slot (x := p) (g := fun q => { q with state := .RUNNABLE }) rfl (by simp [living]) (by simp [running, living])
  | sleep a free pc => exact asleep _ _
  | fork th free pc =>
    unfold State.newproc
    split
    · rename_i new procs claim
      obtain ⟨unused, rfl⟩ := Procs.claim_some claim
      exact .slot (x := new) (g := fun q => { q with state := .CREATED }) rfl (by simp [unused, living]) (by simp [living])
    · exact .same rfl
  | @newpid new th kstack pgt pc =>
    have created := b.child p new (by rw [pc]; rfl)
    exact .slot (s.procs.fill_snd new s.nextpid kstack pgt) (by simp [created, living]) (by simp [created, living])
  | @publish new th free pc =>
    have created := b.child p new (by rw [pc]; rfl)
    refine .slot (x := new) (g := fun q => { q with state := .RUNNABLE, parent := some p, th := th || q.th }) rfl ?_ ?_
    · simp [created, living]
    · exact fun _ => .inr ⟨p, by simp [running, living], rfl⟩
  | @fail new free pc =>
    have created := b.child p new (by rw [pc]; rfl)
    exact .slot (x := new) (g := fun _ => Proc.zero) rfl (by simp [created, living]) (by simp [Proc.zero, living])
  | wait k pc => exact .same rfl
  | @look k copied free pc =>
    unfold State.look
    split
    · rename_i z found
      exact .slot (x := z) (g := fun _ => Proc.zero) rfl (by simp [reapable_some found, living]) (by simp [Proc.zero, living])
    · exact asleep _ _
  | exit ret pc => exact .exitproc p ret
  | sigcheck pc | woken pc => exact .sigcheck p _
  | die free pc => exact absurd rfl alive
  | kill pid sig free pc =>
    unfold State.pget
    split <;> exact .same rfl
  | @signal target pid sig pc =>
    exact .slot (x := target) (g := fun q => { q with sig := sig }) rfl (fun h => ⟨h, rfl⟩) (fun h => .inl ⟨h, rfl⟩)
  | @rouse target pid free pc =>
    unfold State.rouse
    split
    · rename_i asleep
      exact .slot (x := target) (g := fun q => { q with state := .RUNNABLE }) rfl (by simp [living]) (by simp [asleep, living])
    · exact .same rfl

/-- A death: the children go to `initproc`, which is somebody else. -/
theorem Lineage.die (h : Lineage s) (l : Ledger s) (at_p : s.pc p = .exiting) : Lineage (s.die c p) := by
  have procs : (s.die c p).procs = s.procs.exitproc p := rfl
  have numbered : (s.procs p).pid ≠ 0 := (l.exited _ (mem_exits (l.leaving p (.inr at_p)))).1
  have other : initproc ≠ p := by
    rintro rfl
    exact numbered h.first.1
  have alive : ∀ q, q ≠ p → living (s.procs q).state → living ((s.procs.exitproc p) q).state := by
    intro q ne lives
    rw [Procs.exitproc_ne _ ne]
    simp only
    split
    · rfl
    · exact lives
  refine ⟨⟨?_, ?_⟩, fun q x lives parent => ?_⟩
  · rw [procs, Procs.exitproc_ne _ other]
    exact h.first.1
  · exact alive initproc other h.first.2
  · rw [procs] at lives parent
    have ne : q ≠ p := fun e => by simp [e, Procs.exitproc_self, living] at lives
    rw [Procs.exitproc_ne _ ne] at lives parent
    have before : living (s.procs q).state := by
      simp only at lives
      split at lives
      · simp [‹_ ∧ _›.1, living]
      · exact lives
    simp only [Procs.heir] at parent
    split at parent
    · obtain rfl := Option.some.inj parent
      exact alive initproc other h.first.2
    · refine alive x (fun e => ?_) (h.parents q x before parent)
      subst e
      exact absurd parent ‹_›

theorem Lineage.step {l : Label C} (h : Lineage s) (b : Books s) (ledger : Ledger s) (step : s.step l = some t) : Lineage t := by
  cases State.step_inv step with
  | @act c p a _ run does =>
    by_cases dies : a = .die
    · subst dies
      cases does with
      | die free pc => exact h.die ledger pc
    · exact h.kin (does.kin b run dies)
  | start free idle => exact h.kin (.same rfl)
  | @pick c i p scan found =>
    have runnable := next_runnable found
    let picked : Proc → Proc := fun q => { q with state := .RUNNING, chan := if (s.pc p).sleeps then none else q.chan }
    exact h.kin (.slot (x := p) (g := picked) rfl (by simp [picked, living]) (by simp [runnable, picked, living]))
  | stop scan none => exact h.kin (.same rfl)
  | wakeup a free =>
    have woken : ∀ q, (s.procs.wakeupAcquired (some (.addr a)) q).pid = (s.procs q).pid ∧
        (s.procs.wakeupAcquired (some (.addr a)) q).parent = (s.procs q).parent ∧
        living (s.procs.wakeupAcquired (some (.addr a)) q).state = living (s.procs q).state := by
      intro q
      rcases s.procs.wakeupAcquired_cases (some (.addr a)) q with same | ⟨asleep, woken⟩
      · simp [same]
      · simp [woken, asleep, living]
    refine h.kin ⟨fun q lives => ?_, fun q lives => .inl ?_⟩
    · exact ⟨by rwa [(woken q).2.2], (woken q).1⟩
    · exact ⟨by rwa [(woken q).2.2] at lives, (woken q).2.1⟩

omit [DecidableEq C] in
theorem Lineage.boot : Lineage (State.boot : State C) := by
  refine ⟨by simp [State.boot, Proc.zero, living], fun q x lives parent => ?_⟩
  by_cases e : q = initproc
  · simp [State.boot, e, Proc.zero] at parent
  · simp [State.boot, Procs.set_ne _ _ e, Proc.zero] at parent

omit [DecidableEq C] in
theorem Ledger.boot : Ledger (State.boot : State C) := by
  have zero : ∀ q, ((State.boot : State C).procs q).pid = 0 ∧ ((State.boot : State C).procs q).state ≠ .ZOMBIE := by
    intro q
    by_cases e : q = initproc
    · simp [State.boot, e, Proc.zero]
    · simp [State.boot, Procs.set_ne _ _ e, Proc.zero]
  constructor
  · exact fun p q _ => .inl (zero p).1
  · intro q
    rw [(zero q).1]
    simp [State.boot]
  · simp [State.boot]
  · rintro q (zombie | exiting)
    · exact absurd zombie (zero q).2
    · simp [State.boot] at exiting
  all_goals simp [State.boot, exits, reaps]

/-- All that holds of the process table in every run. -/
structure Sound (s : State C) : Prop where
  books : Books s
  busy : Busy s
  ledger : Ledger s
  lineage : Lineage s

theorem sound (h : (procSystem C).Reach s) : Sound s := by
  refine h.invariant ?_ ?_
  · rintro s rfl
    exact ⟨Books.boot, by simp [Busy, State.boot, Pc.busy], Ledger.boot, Lineage.boot⟩
  · rintro s l t ⟨books, busy, ledger, lineage⟩ - step
    exact ⟨books.step step, busy.step books step, ledger.step books busy step, lineage.step books ledger step⟩

/-- **An exit is reaped once, with its value.** Nobody exits twice or is reaped twice; a
reaping call has the number and the value of an exit on record, `wait` only of a child of
its own; and no parent of the living is gone. -/
theorem exit_reaped_once (h : (procSystem C).Reach s) :
    (exits s.log).Nodup ∧ (reaps s.log).Nodup ∧
    (∀ caller k child copied result stored, .reap caller k child copied result stored ∈ s.log →
      ∃ ret, .exit child.pid ret ∈ s.log ∧ Reaped caller k child copied result stored ret) ∧
    ∀ q x, living (s.procs q).state → (s.procs q).parent = some x →
      (s.procs x).state ≠ .ZOMBIE ∧ (s.procs x).state ≠ .UNUSED := by
  obtain ⟨-, -, ledger, lineage⟩ := sound h
  refine ⟨ledger.once, ledger.single, ?_, fun q x lives parent => ?_⟩
  · intro caller k child copied result stored mem
    exact ⟨child.ret, ledger.results caller k child copied result stored mem⟩
  · have alive := lineage.parents q x lives parent
    refine ⟨fun e => ?_, fun e => ?_⟩ <;> simp [e, living] at alive

end Steps

/-- `initproc` reaps its child, which has passed 7 to `exit`. -/
theorem exit_reaped_once_child : ∃ s : State (Fin 1), reaps s.log = [1] ∧
    ∃ child, .reap initproc (.wait true) child true 1 (some 7) ∈ s.log ∧
      ∃ ret, .exit child.pid ret ∈ s.log ∧ Reaped initproc (.wait true) child true 1 (some 7) ret := by
  have init : (procSystem (Fin 1)).Reach State.boot := .init rfl
  obtain ⟨s, run, reaps, child, reaped⟩ : ∃ s : State (Fin 1), (procSystem (Fin 1)).run State.boot
      [.start 0, .scan 0, .act 0 (.fork false), .act 0 (.newpid (some 1) (some 2)), .act 0 .publish, .act 0 .yield,
        .scan 0, .act 0 (.exit 7), .act 0 .die, .scan 0,
        .start 0, .scan 0, .act 0 (.wait (.wait true)), .act 0 (.look true)] = some s ∧ reaps s.log = [1] ∧
      ∃ child, .reap initproc (.wait true) child true 1 (some 7) ∈ s.log :=
    ⟨_, rfl, by decide +kernel, _, List.mem_cons_self⟩
  exact ⟨s, reaps, child, reaped, (exit_reaped_once (init.run run)).2.2.1 _ _ _ _ _ _ reaped⟩

end Aarch64Os.Kernel.Tasks
