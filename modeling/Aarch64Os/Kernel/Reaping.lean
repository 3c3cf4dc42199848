import Mathlib
import Aarch64Os.Kernel.ProcSystem

/-!
# Waiting for children (`wait`, `waitpid`, `exitproc`)

A process that waits sleeps on its own slot, and an exiting process wakes the one its
`parent` points to. Zombies also reach a process through `reparent`, which wakes nobody,
and `waitpid` also waits for processes that are not children.
-/

namespace Aarch64Os.Kernel.Tasks
set_option autoImplicit false
open Base

variable {C : Type}

/-- `p` is blocked in `wait` or `waitpid`. -/
def State.Waits (s : State C) (p : ProcId) (k : Wait) : Prop := (s.procs p).state = .SLEEPING ∧ s.pc p = .asleep (some k)

/-- No process is blocked in `wait` or `waitpid` while a zombie is there for it to reap. -/
def State.Served (s : State C) : Prop :=
  ∀ p k z, s.Waits p k → (s.procs z).state = .ZOMBIE → k.awaits p (s.procs z) = false

/-- An exiting process leaves no waiter behind: it hands `initproc` a zombie only if it wakes
`initproc` too or `initproc` is not blocked in `wait`, and nobody but its parent is blocked
in `waitpid` for it. -/
def Heard (s : State C) : Label C → Prop
  | .act c .die => ∀ p, s.cpu c = .run p →
    (∀ z, (s.procs z).state = .ZOMBIE → (s.procs z).parent = some p →
      (s.procs p).parent = some initproc ∨ ∀ status, ¬ s.Waits initproc (.wait status)) ∧
    ∀ q status, s.Waits q (.waitpid (s.procs p).pid status) → (s.procs p).parent = some q
  | _ => True

/-- The CPUs run `RUNNING` processes, one each; a slot that is being filled is `CREATED` and
has one parent; a process blocked in `wait` or `waitpid` sleeps on its own slot. -/
structure Books (s : State C) : Prop where
  running : ∀ c p, s.cpu c = .run p → (s.procs p).state = .RUNNING
  single : ∀ c d p, s.cpu c = .run p → s.cpu d = .run p → c = d
  child : ∀ p new, (s.pc p).child = some new → (s.procs new).state = .CREATED
  parents : ∀ p q new, (s.pc p).child = some new → (s.pc q).child = some new → p = q
  chan : ∀ p k, s.Waits p k → (s.procs p).chan = some (.proc p)

/-- What a step of `p` does to the books: other slots stay `RUNNING`, fall asleep by nobody,
and are filled by one process; `p` starts to wait only when there is nothing to reap. -/
structure Moved (s t : State C) (p : ProcId) : Prop where
  running : ∀ q, q ≠ p → (s.procs q).state = .RUNNING → (t.procs q).state = .RUNNING
  sleeping : ∀ q, q ≠ p → (t.procs q).state = .SLEEPING →
    (s.procs q).state = .SLEEPING ∧ (t.procs q).chan = (s.procs q).chan
  created : ∀ q, (s.procs q).state = .CREATED → (s.pc p).child = some q ∨ (t.procs q).state = .CREATED
  pc : ∀ q, q ≠ p → t.pc q = s.pc q ∨ t.pc q = .out
  cpu : ∀ c q, q ≠ p → t.cpu c = .run q → s.cpu c = .run q
  self : ∀ c, t.cpu c = .run p → (t.procs p).state = .RUNNING
  single : ∀ c d, t.cpu c = .run p → t.cpu d = .run p → c = d
  child : ∀ new, (t.pc p).child = some new →
    (t.procs new).state = .CREATED ∧ ((s.pc p).child = some new ∨ (s.procs new).state ≠ .CREATED)
  waits : ∀ k, t.Waits p k → s.Waits p k ∧ (t.procs p).chan = (s.procs p).chan ∨
    (t.procs p).chan = some (.proc p) ∧ ∀ z, (s.procs z).state = .ZOMBIE → k.awaits p (s.procs z) = false

/-- No slot becomes a zombie, and zombies stay as they are. -/
def SameDead (s t : State C) : Prop :=
  ∀ z, (t.procs z).state = .ZOMBIE →
    (s.procs z).state = .ZOMBIE ∧ (t.procs z).parent = (s.procs z).parent ∧ (t.procs z).pid = (s.procs z).pid

section Invariants
variable {s t : State C} {c : C} {p : ProcId}

/-- The books after a step of `p`. -/
theorem Books.moved (h : Books s) (m : Moved s t p) : Books t := by
  have others : ∀ q new, q ≠ p → (t.pc q).child = some new → (s.pc q).child = some new := by
    intro q new ne eq
    rcases m.pc q ne with same | out
    · rwa [same] at eq
    · simp [out, Pc.child] at eq
  have apart : ∀ q new, q ≠ p → (t.pc p).child = some new → (t.pc q).child ≠ some new := by
    intro q new ne mine eq
    have eq := others q new ne eq
    rcases (m.child new mine).2 with old | fresh
    · exact ne (h.parents q p new eq old)
    · exact fresh (h.child q new eq)
  constructor
  · intro c q run
    by_cases e : q = p
    · subst e
      exact m.self c run
    · exact m.running q e (h.running c q (m.cpu c q e run))
  · intro c d q run run'
    by_cases e : q = p
    · subst e
      exact m.single c d run run'
    · exact h.single c d q (m.cpu c q e run) (m.cpu d q e run')
  · intro q new eq
    by_cases e : q = p
    · subst e
      exact (m.child new eq).1
    · have eq := others q new e eq
      rcases m.created new (h.child q new eq) with mine | kept
      · exact absurd (h.parents q p new eq mine) e
      · exact kept
  · intro q q' new eq eq'
    by_cases e : q = p
    · by_cases e' : q' = p
      · rw [e, e']
      · exact absurd eq' (apart q' new e' (e ▸ eq))
    · by_cases e' : q' = p
      · exact absurd eq (apart q new e (e' ▸ eq'))
      · exact h.parents q q' new (others q new e eq) (others q' new e' eq')
  · intro q k waiting
    by_cases e : q = p
    · subst e
      rcases m.waits k waiting with ⟨before, same⟩ | ⟨chan, -⟩
      · rw [same]
        exact h.chan q k before
      · exact chan
    · obtain ⟨asleep, at_k⟩ := waiting
      obtain ⟨asleep', same⟩ := m.sleeping q e asleep
      rcases m.pc q e with pc | out
      · rw [same]
        exact h.chan q k ⟨asleep', by rw [← pc, at_k]⟩
      · simp [out] at at_k

/-- Who waits after a step of another process has waited before. -/
theorem Moved.waits_before (m : Moved s t p) {q : ProcId} {k : Wait} (ne : q ≠ p) (h : t.Waits q k) : s.Waits q k := by
  obtain ⟨asleep, at_k⟩ := h
  refine ⟨(m.sleeping q ne asleep).1, ?_⟩
  rcases m.pc q ne with pc | out
  · rw [← pc, at_k]
  · simp [out] at at_k

/-- A step without a death serves as before. -/
theorem State.Served.moved (h : s.Served) (m : Moved s t p) (dead : SameDead s t) : t.Served := by
  intro q k z waiting zombie
  obtain ⟨zombie', parent, pid⟩ := dead z zombie
  have before : k.awaits q (s.procs z) = false := by
    by_cases e : q = p
    · subst e
      rcases m.waits k waiting with ⟨waiting', -⟩ | ⟨-, nothing⟩
      · exact h q k z waiting' zombie'
      · exact nothing z zombie'
    · exact h q k z (m.waits_before e waiting) zombie'
  cases k with
  | wait status => simpa only [Wait.awaits, parent] using before
  | waitpid n status => simpa only [Wait.awaits, pid] using before

theorem reapable_some {procs : Procs} {k : Wait} {z : ProcId} (h : reapable procs p k = some z) :
    (procs z).state = .ZOMBIE := by
  have found := Procs.find_some h
  simp only [Bool.decide_and, Bool.and_eq_true, decide_eq_true_eq] at found
  exact found.2

theorem reapable_none {procs : Procs} {k : Wait} (h : reapable procs p k = none) {z : ProcId}
    (zombie : (procs z).state = .ZOMBIE) : k.awaits p (procs z) = false := by
  have none := List.find?_eq_none.1 h z (List.mem_finRange z)
  simpa [zombie] using none

/-- A step of the process on a CPU that changes one slot and its place in the code. -/
theorem Moved.slot (h : Books s) (run : s.cpu c = .run p) {x : ProcId} {g : Proc → Proc} {pc : Pc}
    (running : (s.procs x).state = .RUNNING → (g (s.procs x)).state = .RUNNING)
    (sleeping : (g (s.procs x)).state = .SLEEPING → (s.procs x).state = .SLEEPING ∧ (g (s.procs x)).chan = (s.procs x).chan)
    (created : (s.procs x).state = .CREATED → (s.pc p).child = some x ∨ (g (s.procs x)).state = .CREATED)
    (child : ∀ new, pc.child = some new →
      new = x ∧ (g (s.procs x)).state = .CREATED ∧ ((s.pc p).child = some x ∨ (s.procs x).state ≠ .CREATED))
    (awake : ∀ k, pc ≠ .asleep k) : Moved s ((s.set x g).go p pc) p := by
  have at_p := h.running c p run
  have single := fun d => h.single c d p run
  constructor <;> simp only [State.go_procs, State.go_pc, State.go_cpu, State.set_procs, State.set_pc, State.set_cpu,
    Procs.set_apply, State.Waits]
  all_goals grind

/-- Only the table, the CPUs and the places of the processes matter. -/
theorem Moved.congr {u : State C} (m : Moved s t p) (procs : u.procs = t.procs) (pc : u.pc = t.pc) (cpu : u.cpu = t.cpu) :
    Moved s u p := by
  obtain ⟨running, sleeping, created, here, cpus, self, single, child, waits⟩ := m
  constructor
  · rwa [procs]
  · rwa [procs]
  · rwa [procs]
  · rwa [pc]
  · rwa [cpu]
  · rwa [cpu, procs]
  · rwa [cpu]
  · rwa [pc, procs]
  · intro k
    rw [State.Waits, procs, pc]
    exact waits k

/-- Nothing moves. -/
theorem Moved.refl (h : Books s) (p : ProcId) : Moved s s p where
  running _ _ running := running
  sleeping _ _ asleep := ⟨asleep, rfl⟩
  created _ created := .inr created
  pc _ _ := .inl rfl
  cpu _ _ _ run := run
  self c := h.running c p
  single c d := h.single c d p
  child new eq := ⟨h.child p new eq, .inl eq⟩
  waits _ waits := .inl ⟨waits, rfl⟩

/-- Another process is set to start. -/
theorem Moved.out (m : Moved s t p) (q : ProcId) : Moved s (t.go q .out) p := by
  have places : ∀ x, (t.go q .out).pc x = t.pc x ∨ (t.go q .out).pc x = .out := by
    intro x
    rw [State.go_pc]
    split
    · exact .inr rfl
    · exact .inl rfl
  refine ⟨m.running, m.sleeping, m.created, fun x ne => ?_, m.cpu, m.self, m.single, fun new eq => ?_, fun k waits => ?_⟩
  · rcases places x with same | out
    · rw [same]
      exact m.pc x ne
    · exact .inr out
  · rcases places p with same | out
    · rw [same] at eq
      exact m.child new eq
    · simp [out, Pc.child] at eq
  · obtain ⟨asleep, at_k⟩ := waits
    rcases places p with same | out
    · exact m.waits k ⟨asleep, by rw [← same, at_k]⟩
    · simp [out] at at_k

/-- A step that changes data of the process, and where it is. -/
theorem Moved.own (h : Books s) (run : s.cpu c = .run p) {g : Proc → Proc} {x : Pc} (state : (g (s.procs p)).state = .RUNNING)
    (child : x.child = none) (awake : ∀ k, x ≠ .asleep k) : Moved s ((s.set p g).go p x) p := by
  have running := h.running c p run
  refine .slot h run (fun _ => state) ?_ ?_ ?_ awake
  · simp [state]
  · simp [running]
  · simp [child]

/-- A step to another place in the code. -/
theorem Moved.go (h : Books s) (run : s.cpu c = .run p) {pc : Pc} (child : pc.child = none) (awake : ∀ k, pc ≠ .asleep k) :
    Moved s (s.go p pc) p := by
  have own := Moved.own h run (g := id) (h.running c p run) child awake
  exact own.congr (by simp [Procs.set]) rfl rfl

theorem Moved.exitproc (h : Books s) (run : s.cpu c = .run p) (ret : Int) : Moved s (s.exitproc p ret) p := by
  unfold State.exitproc
  split
  · exact (Moved.refl h p).congr rfl rfl rfl
  · have own := Moved.own h run (g := fun q => { q with ret := ret }) (x := .exiting) (h.running c p run) rfl (by simp)
    exact own.congr rfl rfl rfl

/-- The signal check, which goes on to `pc` or leaves. -/
theorem Moved.sigcheck (h : Books s) (run : s.cpu c = .run p) {pc : Pc} (child : pc.child = none)
    (awake : ∀ k, pc ≠ .asleep k) (here : (s.pc p).child = none) (up : ∀ k, s.pc p ≠ .asleep k) :
    Moved s (s.sigcheck p pc) p := by
  have running := h.running c p run
  unfold State.sigcheck State.exitproc
  split
  · split
    · have own := Moved.own h run (g := fun q => { q with sig := 0 }) running here up
      exact own.congr rfl (congrArg State.pc (State.go_self rfl)).symm rfl
    · have own := Moved.own h run (g := fun q => { q with sig := 0, ret := 1 }) (x := .exiting) running rfl (by simp)
      exact own.congr (by simp) rfl rfl
  · exact .go h run child awake

theorem Pc.resume_child (pc : Pc) : pc.resume.child = pc.child := by cases pc <;> rfl

theorem Moved.wakeup (h : Books s) (chan : Option Chan) : Moved s { s with procs := s.procs.wakeupAcquired chan } p := by
  have cases := fun q => s.procs.wakeupAcquired_cases chan q
  have m := Moved.refl h p
  have running : ∀ q, (s.procs q).state = .RUNNING → (s.procs.wakeupAcquired chan q).state = .RUNNING := by
    intro q running
    rcases cases q with same | ⟨asleep, -⟩
    · rwa [same]
    · simp [asleep] at running
  have created : ∀ q, (s.procs q).state = .CREATED → (s.procs.wakeupAcquired chan q).state = .CREATED := by
    intro q created
    rcases cases q with same | ⟨asleep, -⟩
    · rwa [same]
    · simp [asleep] at created
  have sleeping : ∀ q, (s.procs.wakeupAcquired chan q).state = .SLEEPING → s.procs.wakeupAcquired chan q = s.procs q := by
    intro q asleep
    rcases cases q with same | ⟨-, woken⟩
    · exact same
    · simp [woken] at asleep
  refine ⟨fun q _ => running q, ?_, fun q eq => .inr (created q eq), m.pc, m.cpu, fun d run => running p (h.running d p run),
    m.single, fun new eq => ⟨created new (h.child p new eq), .inl eq⟩, ?_⟩
  · intro q _ asleep
    have asleep : (s.procs.wakeupAcquired chan q).state = .SLEEPING := asleep
    have same := sleeping q asleep
    rw [same] at asleep
    exact ⟨asleep, congrArg Proc.chan same⟩
  · rintro k ⟨asleep, at_k⟩
    have asleep : (s.procs.wakeupAcquired chan p).state = .SLEEPING := asleep
    have same := sleeping p asleep
    rw [same] at asleep
    exact .inl ⟨⟨asleep, at_k⟩, congrArg Proc.chan same⟩

theorem Books.boot : Books (State.boot : State C) := by
  have fresh : ∀ q, ((State.boot : State C).procs q).state = .RUNNABLE ∨ ((State.boot : State C).procs q).state = .UNUSED := by
    intro q
    by_cases e : q = initproc
    · subst e
      exact .inl (by simp [State.boot])
    · exact .inr (by simp [State.boot, Procs.set_ne _ _ e, Proc.zero])
  constructor
  · simp [State.boot]
  · simp [State.boot]
  · simp [State.boot, Pc.child]
  · simp [State.boot, Pc.child]
  · rintro p k ⟨asleep, -⟩
    rcases fresh p with e | e <;> simp [e] at asleep

/-- A change of one slot that makes no zombie. -/
theorem SameDead.slot {x : ProcId} {g : Proc → Proc}
    (zombie : (g (s.procs x)).state = .ZOMBIE → (s.procs x).state = .ZOMBIE ∧
      (g (s.procs x)).parent = (s.procs x).parent ∧ (g (s.procs x)).pid = (s.procs x).pid)
    (procs : t.procs = s.procs.set x g) : SameDead s t := by
  intro z dead
  rw [procs] at dead ⊢
  by_cases e : z = x
  · subst e
    simp only [Procs.set_self] at dead ⊢
    exact zombie dead
  · rw [Procs.set_ne _ _ e] at dead ⊢
    exact ⟨dead, rfl, rfl⟩

theorem SameDead.exitproc (p : ProcId) (ret : Int) : SameDead s (s.exitproc p ret) := by
  unfold State.exitproc
  split
  · exact fun z dead => ⟨dead, rfl, rfl⟩
  · exact .slot (x := p) (g := fun q => { q with ret := ret }) (fun dead => ⟨dead, rfl, rfl⟩) rfl

theorem SameDead.sigcheck (p : ProcId) (pc : Pc) : SameDead s (s.sigcheck p pc) := by
  unfold State.sigcheck State.exitproc
  split
  · split
    · exact .slot (x := p) (g := fun q => { q with sig := 0 }) (fun dead => ⟨dead, rfl, rfl⟩) rfl
    · exact .slot (x := p) (g := fun q => { q with sig := 0, ret := 1 }) (fun dead => ⟨dead, rfl, rfl⟩) (by simp)
  · exact fun z dead => ⟨dead, rfl, rfl⟩

end Invariants

section Steps
variable [DecidableEq C] {s t : State C} {c : C} {p : ProcId}

/-- A step of the process on a CPU that ends in the scheduler. -/
theorem Moved.leave (h : Books s) (run : s.cpu c = .run p) {g : Proc → Proc} {x : Pc} (child : x.child = none)
    (waits : ∀ k, (g (s.procs p)).state = .SLEEPING → x = .asleep (some k) → (g (s.procs p)).chan = some (.proc p) ∧
      ∀ z, (s.procs z).state = .ZOMBIE → k.awaits p (s.procs z) = false) :
    Moved s (((s.set p g).go p x).cswitch c p) p := by
  have at_p := h.running c p run
  have single := fun d => h.single c d p run
  constructor <;> simp only [State.cswitch_procs, State.cswitch_pc, State.cswitch_cpu, State.go_procs, State.go_pc,
    State.go_cpu, State.set_procs, State.set_pc, State.set_cpu, Procs.set_apply, State.Waits]
  all_goals grind

theorem Moved.look (h : Books s) (run : s.cpu c = .run p) (k : Wait) (copied : Bool) :
    Moved s (s.look c p k copied) p := by
  unfold State.look
  split
  · rename_i z found
    have zombie := reapable_some found
    have freed : Moved s ((s.set z fun _ => Proc.zero).go p .out) p := by
      refine .slot h run ?_ ?_ ?_ ?_ (by simp)
      · simp [zombie]
      · simp [Proc.zero]
      · simp [zombie]
      · simp [Pc.child]
    exact freed.congr rfl rfl rfl
  · rename_i nothing
    refine Moved.leave h run (g := fun q => { q with chan := some (.proc p), state := .SLEEPING }) rfl fun x _ eq => ⟨rfl, ?_⟩
    obtain rfl : k = x := by simpa using eq
    exact fun z zombie => reapable_none nothing zombie

/-- The exiting process leaves, whatever it does to its children and its parent. -/
theorem Moved.die (h : Books s) (run : s.cpu c = .run p) : Moved s (s.die c p) p := by
  have running := h.running c p run
  have left := Moved.leave h run (g := fun q => { q with state := .ZOMBIE }) (x := .dead) rfl (by simp)
  have dead : (s.procs.exitproc p p).state = .ZOMBIE := by rw [Procs.exitproc_self]
  have others : ∀ q, q ≠ p → (s.procs q).state ≠ .SLEEPING → (s.procs.exitproc p q).state = (s.procs q).state := by
    intro q ne awake
    simp [Procs.exitproc_ne _ ne, awake]
  unfold State.die
  refine ⟨?_, ?_, ?_, left.pc, left.cpu, ?_, left.single, ?_, ?_⟩
  · intro q ne at_q
    exact (others q ne (by simp [at_q])).trans at_q
  · intro q ne asleep
    simp only [State.cswitch_procs, State.go_procs, Procs.exitproc_ne _ ne] at asleep ⊢
    split at asleep
    · simp at asleep
    · exact ⟨asleep, trivial⟩
  · intro q created
    have ne : q ≠ p := fun e => by simp [e, running] at created
    exact .inr ((others q ne (by simp [created])).trans created)
  · intro d run'
    have := left.self d run'
    simp at this
  · intro new eq
    simp [State.go_pc, Pc.child] at eq
  · intro k waits
    simp [State.Waits, dead] at waits

/-- What the process on a CPU does, for the books. -/
theorem Does.moved {a : Act} (h : Books s) (run : s.cpu c = .run p) (does : Does s c p a t) : Moved s t p := by
  have running := h.running c p run
  cases does with
  | yield free pc =>
    have left := Moved.leave h run (g := fun q => { q with state := .RUNNABLE }) (x := .out) rfl (by simp)
    exact left.congr rfl (congrArg State.pc (State.go_self pc)).symm rfl
  | sleep a free pc => exact .leave h run rfl (by simp)
  | fork th free pc =>
    unfold State.newproc
    split
    · rename_i new procs claim
      obtain ⟨unused, rfl⟩ := Procs.claim_some claim
      refine Moved.slot h run (x := new) (g := fun q => { q with state := .CREATED }) ?_ ?_ ?_ ?_ (by simp)
      · simp [unused]
      · simp
      · simp
      · simp [Pc.child, unused]
    · exact .refl h p
  | @newpid new th kstack pgt pc =>
    obtain ⟨g, data, eq, -⟩ := s.procs.fill_eq new s.nextpid kstack pgt
    have filling : (s.pc p).child = some new := by rw [pc]; rfl
    have created := h.child p new filling
    have state := (data (s.procs new)).2
    have moved : Moved s ((s.set new g).go p (if (s.procs.fill new s.nextpid kstack pgt).1.isSome then .copying new th else .out)) p := by
      refine Moved.slot h run ?_ ?_ ?_ ?_ ?_
      · simp [created]
      · simp [state, created]
      · simp [state, created]
      · intro x eq
        split at eq
        · obtain rfl : new = x := by simpa [Pc.child] using eq
          exact ⟨rfl, state.trans created, .inl filling⟩
        · simp [Pc.child] at eq
      · intro k
        split <;> simp
    exact moved.congr eq rfl rfl
  | @publish new th free pc =>
    have filling : (s.pc p).child = some new := by rw [pc]; rfl
    have created := h.child p new filling
    have moved : Moved s ((s.set new fun q => { q with state := .RUNNABLE, parent := some p, th := th || q.th }).go p .out) p := by
      refine Moved.slot h run ?_ ?_ ?_ ?_ (by simp)
      · simp [created]
      · simp
      · exact fun _ => .inl filling
      · simp [Pc.child]
    exact moved.out new
  | @fail new free pc =>
    have filling : (s.pc p).child = some new := by rw [pc]; rfl
    have created := h.child p new filling
    refine Moved.slot h run (x := new) (g := fun _ => Proc.zero) ?_ ?_ ?_ ?_ (by simp)
    · simp [created]
    · simp [Proc.zero]
    · exact fun _ => .inl filling
    · simp [Pc.child]
  | wait k pc => exact .go h run rfl (by simp)
  | @look k copied free pc => exact .look h run k copied
  | exit ret pc => exact .exitproc h run ret
  | sigcheck pc => exact .sigcheck h run rfl (by simp) (by simp [pc, Pc.child]) (by simp [pc])
  | @woken k pc =>
    refine .sigcheck h run ?_ ?_ (by simp [pc, Pc.child]) (by simp [pc])
    · cases k <;> rfl
    · cases k <;> simp
  | die free pc => exact .die h run
  | kill pid sig free pc =>
    unfold State.pget
    split
    · exact .go h run rfl (by simp)
    · exact .refl h p
  | @signal target pid sig pc =>
    have moved : Moved s ((s.set target fun q => { q with sig := sig }).go p (.rousing pid target)) p := by
      refine .slot h run ?_ ?_ ?_ ?_ (by simp)
      · exact id
      · exact fun asleep => ⟨asleep, rfl⟩
      · exact .inr
      · simp [Pc.child]
    exact moved.congr rfl rfl rfl
  | @rouse target pid free pc =>
    unfold State.rouse
    split
    · rename_i asleep
      have moved : Moved s ((s.set target fun q => { q with state := .RUNNABLE }).go p .out) p := by
        refine .slot h run ?_ ?_ ?_ ?_ (by simp)
        · simp [asleep]
        · simp
        · simp [asleep]
        · simp [Pc.child]
      exact moved.congr rfl rfl rfl
    · exact .go h run rfl (by simp)

/-- A CPU moves about in its scheduler. -/
theorem Moved.sched (h : Books s) (x : Cpu) (lk : Option C) (away : ∀ q, x ≠ .run q) :
    Moved s { s with cpu := Function.update s.cpu c x, lk := lk } p := by
  have runs : ∀ d q, Function.update s.cpu c x d = .run q → s.cpu d = .run q := by
    intro d q run
    by_cases e : d = c
    · subst e
      rw [Function.update_self] at run
      exact absurd run (away q)
    · rwa [Function.update_of_ne e] at run
  have m := Moved.refl h p
  exact ⟨m.running, m.sleeping, m.created, m.pc, fun d q _ run => runs d q run, fun d run => m.self d (runs d p run),
    fun d e run run' => m.single d e (runs d p run) (runs e p run'), m.child, m.waits⟩

theorem Moved.pick (h : Books s) {i : Nat} (found : next s.procs i = some p) : Moved s (s.pick c p) p := by
  have runnable := next_runnable found
  have idle : ∀ d, s.cpu d ≠ .run p := fun d run => by simp [h.running d p run] at runnable
  have others : ∀ q, q ≠ p → (s.pick c p).procs q = s.procs q := by
    intro q ne
    simp only [State.pick, State.set_procs, Procs.set_ne _ _ ne]
  have picked : ((s.pick c p).procs p).state = .RUNNING := by simp [State.pick]
  have cpus : ∀ d, (s.pick c p).cpu d = .run p → d = c := by
    intro d run
    by_contra ne
    simp only [State.pick, Function.update_of_ne ne] at run
    exact idle d run
  refine ⟨?_, ?_, ?_, ?_, ?_, fun _ _ => picked, fun d e run run' => (cpus d run).trans (cpus e run').symm, ?_, ?_⟩
  · intro q ne running
    rwa [others q ne]
  · intro q ne asleep
    rw [others q ne] at asleep ⊢
    exact ⟨asleep, rfl⟩
  · intro q created
    have ne : q ≠ p := fun e => by simp [e, runnable] at created
    exact .inr (by rwa [others q ne])
  · exact fun q ne => .inl (Function.update_of_ne ne ..)
  · intro d q ne run
    by_cases e : d = c
    · subst e
      have : p = q := by simpa [State.pick] using run
      exact absurd this.symm ne
    · simpa only [State.pick, Function.update_of_ne e] using run
  · intro new eq
    have eq : (s.pc p).child = some new := by
      simpa only [State.pick, Function.update_self, Pc.resume_child] using eq
    have created := h.child p new eq
    have ne : new ≠ p := fun e => by simp [e, runnable] at created
    exact ⟨by rwa [others new ne], .inl eq⟩
  · rintro k ⟨asleep, -⟩
    simp [picked] at asleep

/-- **The books are kept.** -/
theorem Books.step {l : Label C} (h : Books s) (step : s.step l = some t) : Books t := by
  cases State.step_inv step with
  | act run does => exact h.moved (does.moved h run)
  | start free idle => exact h.moved (Moved.sched (p := initproc) h .scan _ (by simp))
  | pick scan found => exact h.moved (.pick h found)
  | stop scan none => exact h.moved (Moved.sched (p := initproc) h .idle _ (by simp))
  | wakeup a free => exact h.moved (Moved.wakeup (p := initproc) h _)

/-- Nobody dies but in `exitproc`. -/
theorem Does.same_dead {a : Act} (h : Books s) (alive : a ≠ .die) (does : Does s c p a t) : SameDead s t := by
  have same : ∀ u : State C, u.procs = s.procs → SameDead s u := by
    intro u eq z dead
    rw [eq] at dead ⊢
    exact ⟨dead, rfl, rfl⟩
  cases does with
  | yield free pc => exact .slot (x := p) (g := fun q => { q with state := .RUNNABLE }) (by simp) rfl
  | sleep a free pc =>
    exact .slot (x := p) (g := fun q => { q with chan := some (.addr a), state := .SLEEPING }) (by simp) rfl
  | fork th free pc =>
    unfold State.newproc
    split
    · rename_i new procs claim
      obtain ⟨-, rfl⟩ := Procs.claim_some claim
      exact .slot (x := new) (g := fun q => { q with state := .CREATED }) (by simp) rfl
    · exact same s rfl
  | @newpid new th kstack pgt pc =>
    obtain ⟨g, data, eq, -⟩ := s.procs.fill_eq new s.nextpid kstack pgt
    have created := h.child p new (by rw [pc]; rfl)
    refine .slot ?_ eq
    simp [(data (s.procs new)).2, created]
  | @publish new th free pc =>
    exact .slot (x := new) (g := fun q => { q with state := .RUNNABLE, parent := some p, th := th || q.th }) (by simp) rfl
  | @fail new free pc => exact .slot (x := new) (g := fun _ => Proc.zero) (by simp [Proc.zero]) rfl
  | wait k pc => exact same _ rfl
  | @look k copied free pc =>
    unfold State.look
    split
    · rename_i z found
      exact .slot (x := z) (g := fun _ => Proc.zero) (by simp [Proc.zero]) rfl
    · exact .slot (x := p) (g := fun q => { q with chan := some (.proc p), state := .SLEEPING }) (by simp) rfl
  | exit ret pc => exact .exitproc p ret
  | sigcheck pc => exact .sigcheck p .out
  | @woken k pc => exact .sigcheck p _
  | die free pc => exact absurd rfl alive
  | kill pid sig free pc =>
    unfold State.pget
    split <;> exact same _ rfl
  | @signal target pid sig pc =>
    exact .slot (x := target) (g := fun q => { q with sig := sig }) (fun dead => ⟨dead, rfl, rfl⟩) rfl
  | @rouse target pid free pc =>
    unfold State.rouse
    split
    · exact .slot (x := target) (g := fun q => { q with state := .RUNNABLE }) (by simp) rfl
    · exact same _ rfl

/-- The zombies an exit leaves: the one it makes, and those there have been, of which some are handed over. -/
theorem State.Served.die (h : s.Served) (b : Books s) (run : s.cpu c = .run p)
    (heard : Heard s (.act c .die)) : (s.die c p).Served := by
  obtain ⟨handed, numbered⟩ := heard p run
  rintro q k z ⟨asleep, at_k⟩ zombie
  simp only [State.die, State.cswitch_procs, State.go_procs, State.cswitch_pc, State.go_pc] at asleep at_k zombie ⊢
  have ne : q ≠ p := fun e => by simp [e, Procs.exitproc_self] at asleep
  rw [if_neg ne] at at_k
  -- who is still asleep has not been woken by this exit
  have still : s.Waits q k ∧ (s.procs q).chan ≠ (s.procs.heir p p).map .proc := by
    rw [Procs.exitproc_ne _ ne] at asleep
    grind [State.Waits]
  obtain ⟨waits, unheard⟩ := still
  rw [b.chan q k waits] at unheard
  have unheard : s.procs.heir p p ≠ some q := fun e => unheard (by rw [e]; rfl)
  by_cases e : z = p
  · subst e
    rw [Procs.exitproc_self]
    cases k with
    | wait status => simpa [Wait.awaits] using unheard
    | waitpid n status =>
      have other : (s.procs z).pid ≠ n := by
        rintro rfl
        have child := numbered q status waits
        exact unheard (by simp [Procs.heir, child, ne])
      simpa [Wait.awaits] using other
  · rw [Procs.exitproc_ne _ e] at zombie ⊢
    have old : (s.procs z).state = .ZOMBIE := by grind
    have before := h q k z waits old
    cases k with
    | wait status =>
      simp only [Wait.awaits, decide_eq_false_iff_not] at before ⊢
      intro heir
      by_cases child : (s.procs z).parent = some p
      · obtain rfl : initproc = q := by simpa [Procs.heir, child] using heir
        rcases handed z old child with mine | free
        · exact unheard (by simp [Procs.heir, mine])
        · exact free status waits
      · exact before (by simpa [Procs.heir, child] using heir)
    | waitpid n status => exact before

/-- A step that meets the condition. -/
theorem State.Served.step {l : Label C} (h : s.Served) (b : Books s) (heard : Heard s l) (step : s.step l = some t) :
    t.Served := by
  have same : ∀ u : State C, u.procs = s.procs → SameDead s u := by
    intro u eq z dead
    rw [eq] at dead ⊢
    exact ⟨dead, rfl, rfl⟩
  cases State.step_inv step with
  | @act c p a _ run does =>
    by_cases dies : a = .die
    · subst dies
      cases does with
      | die free pc => exact h.die b run heard
    · exact h.moved (does.moved b run) (does.same_dead b dies)
  | start free idle => exact h.moved (Moved.sched (p := initproc) b .scan _ (by simp)) (same _ rfl)
  | @pick c i p scan found =>
    let picked : Proc → Proc := fun q => { q with state := .RUNNING, chan := if (s.pc p).sleeps then none else q.chan }
    exact h.moved (.pick b found) (.slot (x := p) (g := picked) (by simp [picked]) rfl)
  | stop scan none => exact h.moved (Moved.sched (p := initproc) b .idle _ (by simp)) (same _ rfl)
  | wakeup a free =>
    refine h.moved (Moved.wakeup (p := initproc) b _) fun z dead => ?_
    rcases s.procs.wakeupAcquired_cases (some (.addr a)) z with eq | ⟨-, woken⟩
    · simp only [eq] at dead ⊢
      exact ⟨dead, trivial, trivial⟩
    · simp [woken] at dead

/-- **Waiters are served.** When every exit wakes all who wait for what it leaves, no process
is ever blocked in `wait` or `waitpid` with a zombie there for it. -/
theorem waiters_are_served (h : (procSystem C).Via Heard s) : s.Served := by
  have both : Books s ∧ s.Served := by
    refine h.invariant (I := fun s => Books s ∧ s.Served) ?_ ?_
    · rintro s rfl
      refine ⟨Books.boot, fun p k z waits => ?_⟩
      simp [State.Waits, State.boot] at waits
    · rintro s l t ⟨books, served⟩ heard step
      exact ⟨books.step step, served.step books heard step⟩
  exact both.2

end Steps

/-- `initproc` forks and waits, and its child exits. -/
def oneChild : List (Label (Fin 1)) :=
  [.start 0, .scan 0, .act 0 (.fork false), .act 0 (.newpid (some 1) (some 2)), .act 0 .publish,
    .act 0 (.wait (.wait false)), .act 0 (.look true), .scan 0, .act 0 (.exit 7)]

theorem waiters_are_served_one_child :
    ∃ s : State (Fin 1), (s.procs 1).state = .ZOMBIE ∧ (s.procs initproc).state = .RUNNABLE ∧ s.Served := by
  have init : (procSystem (Fin 1)).Via Heard State.boot := .init rfl
  obtain ⟨s, run, cpu, alive, places, t, step, dead, awake⟩ : ∃ s : State (Fin 1),
      (procSystem (Fin 1)).run State.boot oneChild = some s ∧ s.cpu 0 = .run 1 ∧
      (∀ z, (s.procs z).state ≠ .ZOMBIE) ∧ (∀ q, s.pc q ∈ [.out, .exiting, .asleep (some (.wait false))]) ∧
      ∃ t, s.step (.act 0 .die) = some t ∧ (t.procs 1).state = .ZOMBIE ∧ (t.procs initproc).state = .RUNNABLE :=
    ⟨_, rfl, rfl, by decide +kernel, by decide +kernel, _, rfl, by decide +kernel, by decide +kernel⟩
  have before : (procSystem (Fin 1)).Via Heard s := init.run_of (by simp [oneChild, Heard]) run
  have heard : Heard s (.act 0 .die) := by
    intro p _
    refine ⟨fun z zombie => absurd zombie (alive z), fun q status waits => ?_⟩
    have := places q
    simp [waits.2] at this
  exact ⟨t, dead, awake, waiters_are_served (.step before heard step)⟩

/-- `initproc` has a child 1, that has a child 2, that has a child 3. `initproc` waits;
3 exits, then 2 exits and hands 3 over. -/
def threeGenerations : List (Label (Fin 1)) :=
  [.start 0, .scan 0, .act 0 (.fork false), .act 0 (.newpid (some 1) (some 2)), .act 0 .publish,
    .act 0 (.wait (.wait false)), .act 0 (.look true),
    .scan 0, .act 0 (.fork false), .act 0 (.newpid (some 3) (some 4)), .act 0 .publish, .act 0 .yield,
    .scan 0, .act 0 (.fork false), .act 0 (.newpid (some 5) (some 6)), .act 0 .publish, .act 0 .yield,
    .scan 0, .act 0 (.exit 0), .act 0 .die, .scan 0,
    .start 0, .scan 0, .act 0 .yield, .scan 0, .act 0 (.exit 0), .act 0 .die, .scan 0]

/-- `reparent` hands over a zombie and wakes nobody. -/
theorem handed_over_zombie_unheard : ∃ s : State (Fin 1), (procSystem (Fin 1)).Reach s ∧ s.lk = none ∧
    s.Waits initproc (.wait false) ∧ (s.procs 3).state = .ZOMBIE ∧ (s.procs 3).parent = some initproc := by
  have init : (procSystem (Fin 1)).Reach State.boot := .init rfl
  obtain ⟨s, run, free, waits, zombie, parent⟩ : ∃ s : State (Fin 1),
      (procSystem (Fin 1)).run State.boot threeGenerations = some s ∧ s.lk = none ∧
      ((s.procs initproc).state = .SLEEPING ∧ s.pc initproc = .asleep (some (.wait false))) ∧
      (s.procs 3).state = .ZOMBIE ∧ (s.procs 3).parent = some initproc :=
    ⟨_, rfl, by decide +kernel, by decide +kernel, by decide +kernel, by decide +kernel⟩
  exact ⟨s, init.run run, free, waits, zombie, parent⟩

end Aarch64Os.Kernel.Tasks
