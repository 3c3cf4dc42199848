import Mathlib
import Aarch64Os.Kernel.ExitStatus

/-!
# What a waiting process waits for (`wait`, `waitpid`)

Neither call looks whether there is anything to wait for: it reaps or it sleeps. What a
sleeping process waits for can go away only by a `waitpid` of somebody else, which does not
ask for parenthood.
-/

namespace Aarch64Os.Kernel.Tasks
set_option autoImplicit false
open Base

variable {C : Type}

/-- `z` is a child of `p` that `k` waits for. -/
def State.Child (s : State C) (p : ProcId) (k : Wait) (z : ProcId) : Prop :=
  (s.procs z).state ≠ .UNUSED ∧ (s.procs z).parent = some p ∧ ∀ pid status, k = .waitpid pid status → (s.procs z).pid = pid

/-- No `waitpid` of somebody else reaps a child of `p`. -/
def Spared (p : ProcId) (s : State C) : Label C → Prop
  | .act c (.look _) => ∀ q pid status z, s.cpu c = .run q → s.pc q = .loop (.waitpid pid status) →
      reapable s.procs q (.waitpid pid status) = some z → (s.procs z).parent ≠ some p
  | _ => True

/-- A slot without a process has no parent. -/
def Orphans (s : State C) : Prop :=
  ∀ q, (s.procs q).state = .UNUSED ∨ (s.procs q).state = .CREATED → (s.procs q).parent = none

section Slots
variable {s t : State C} {p z : ProcId} {k : Wait}

theorem Orphans.slot (h : Orphans s) {x : ProcId} {g : Proc → Proc} (procs : t.procs = s.procs.set x g)
    (empty : (g (s.procs x)).state = .UNUSED ∨ (g (s.procs x)).state = .CREATED → (g (s.procs x)).parent = none) : Orphans t := by
  intro q
  rw [procs, Procs.set_apply]
  split
  · exact empty
  · exact h q

theorem Orphans.same (h : Orphans s) (procs : t.procs = s.procs) : Orphans t := by
  intro q
  rw [procs]
  exact h q

theorem State.Child.slot (h : s.Child p k z) {x : ProcId} {g : Proc → Proc} (procs : t.procs = s.procs.set x g)
    (same : z = x → (g (s.procs x)).state ≠ .UNUSED ∧ (g (s.procs x)).parent = (s.procs x).parent ∧
      (g (s.procs x)).pid = (s.procs x).pid) : t.Child p k z := by
  obtain ⟨used, parent, number⟩ := h
  unfold State.Child
  rw [procs, Procs.set_apply]
  split
  · obtain ⟨used', parent', pid⟩ := same ‹_›
    rw [parent', pid]
    exact ⟨used', ‹z = x› ▸ parent, ‹z = x› ▸ number⟩
  · exact ⟨used, parent, number⟩

end Slots

section Steps
variable [DecidableEq C] {s t : State C} {c : C} {p q z : ProcId} {k : Wait}

/-- What the process on a CPU does, for empty slots. -/
theorem Does.orphans {a : Act} (h : Orphans s) (b : Books s) (run : s.cpu c = .run q) (does : Does s c q a t) : Orphans t := by
  have running := b.running c q run
  cases does with
  | yield free pc => exact h.slot (x := q) (g := fun q => { q with state := .RUNNABLE }) rfl (by simp)
  | sleep a free pc => exact h.slot (x := q) (g := fun q => { q with chan := some (.addr a), state := .SLEEPING }) rfl (by simp)
  | fork th free pc =>
    unfold State.newproc
    split
    · rename_i new procs claim
      obtain ⟨unused, rfl⟩ := Procs.claim_some claim
      exact h.slot (x := new) (g := fun q => { q with state := .CREATED }) rfl fun _ => h new (.inl unused)
    · exact h
  | @newpid new th kstack pgt pc => exact h.slot (s.procs.fill_snd new s.nextpid kstack pgt) (h new)
  | @publish new th free pc =>
    exact h.slot (x := new) (g := fun x => { x with state := .RUNNABLE, parent := some q, th := th || x.th }) rfl (by simp)
  | @fail new free pc => exact h.slot (x := new) (g := fun _ => Proc.zero) rfl fun _ => rfl
  | wait k pc => exact h.same rfl
  | @look k copied free pc =>
    unfold State.look
    split
    · rename_i z found
      exact h.slot (x := z) (g := fun _ => Proc.zero) rfl fun _ => rfl
    · exact h.slot (x := q) (g := fun x => { x with chan := some (.proc q), state := .SLEEPING }) rfl (by simp)
  | exit ret pc =>
    unfold State.exitproc
    split
    · exact h.same rfl
    · exact h.slot (x := q) (g := fun q => { q with ret := ret }) rfl (h q)
  | sigcheck pc | woken pc =>
    unfold State.sigcheck State.exitproc
    split
    · split
      · exact h.slot (x := q) (g := fun q => { q with sig := 0 }) rfl (h q)
      · exact h.slot (x := q) (g := fun q => { q with sig := 0, ret := 1 }) (by simp) (h q)
    · exact h.same rfl
  | die free pc =>
    intro x empty
    have procs : (s.die c q).procs = s.procs.exitproc q := rfl
    rw [procs] at empty ⊢
    have ne : x ≠ q := fun e => by simp [e, Procs.exitproc_self] at empty
    rw [Procs.exitproc_ne _ ne] at empty ⊢
    have before : (s.procs x).state = .UNUSED ∨ (s.procs x).state = .CREATED := by
      simp only at empty
      split at empty
      · simp at empty
      · exact empty
    simp [Procs.heir, h x before]
  | kill pid sig free pc =>
    unfold State.pget
    split <;> exact h.same rfl
  | @signal target pid sig pc => exact h.slot (x := target) (g := fun q => { q with sig := sig }) rfl (h target)
  | @rouse target pid free pc =>
    unfold State.rouse
    split
    · exact h.slot (x := target) (g := fun q => { q with state := .RUNNABLE }) rfl (by simp)
    · exact h.same rfl

/-- Another process's step leaves the child to `p`. -/
theorem Does.child {a : Act} (h : s.Child p k z) (o : Orphans s) (b : Books s) (run : s.cpu c = .run q) (other : q ≠ p)
    (spared : Spared p s (.act c a)) (does : Does s c q a t) : t.Child p k z := by
  have running := b.running c q run
  have same : ∀ u : State C, u.procs = s.procs → u.Child p k z := by
    intro u procs
    unfold State.Child
    rw [procs]
    exact h
  have born : ∀ new, (s.pc q).child = some new → z ≠ new := by
    rintro new filling rfl
    have := h.2.1
    simp [o z (.inr (b.child q z filling))] at this
  cases does with
  | yield free pc =>
    exact h.slot (x := q) (g := fun q => { q with state := .RUNNABLE }) rfl fun _ => ⟨by simp, rfl, rfl⟩
  | sleep a free pc =>
    exact h.slot (x := q) (g := fun q => { q with chan := some (.addr a), state := .SLEEPING }) rfl fun _ => ⟨by simp, rfl, rfl⟩
  | fork th free pc =>
    unfold State.newproc
    split
    · rename_i new procs claim
      obtain ⟨-, rfl⟩ := Procs.claim_some claim
      exact h.slot (x := new) (g := fun q => { q with state := .CREATED }) rfl fun _ => ⟨by simp, rfl, rfl⟩
    · exact h
  | @newpid new th kstack pgt pc =>
    refine h.slot (s.procs.fill_snd new s.nextpid kstack pgt) fun e => absurd e (born new ?_)
    rw [pc]
    rfl
  | @publish new th free pc =>
    refine h.slot (x := new) (g := fun x => { x with state := .RUNNABLE, parent := some q, th := th || x.th }) rfl
      fun e => absurd e (born new ?_)
    rw [pc]
    rfl
  | @fail new free pc =>
    refine h.slot (x := new) (g := fun _ => Proc.zero) rfl fun e => absurd e (born new ?_)
    rw [pc]
    rfl
  | wait k pc => exact same _ rfl
  | @look k' copied free pc =>
    unfold State.look
    split
    · rename_i x found
      refine h.slot (x := x) (g := fun _ => Proc.zero) rfl fun e => ?_
      subst e
      cases k' with
      | wait status =>
        have own : (s.procs z).parent = some q := by
          have := Procs.find_some found
          simp only [Wait.awaits, Bool.decide_and, Bool.and_eq_true, decide_eq_true_eq] at this
          exact this.1
        exact absurd (Option.some.inj (own.symm.trans h.2.1)) other
      | waitpid pid status => exact absurd h.2.1 (spared q pid status z run pc found)
    · exact h.slot (x := q) (g := fun x => { x with chan := some (.proc q), state := .SLEEPING }) rfl
        fun _ => ⟨by simp, rfl, rfl⟩
  | exit ret pc =>
    unfold State.exitproc
    split
    · exact same _ rfl
    · exact h.slot (x := q) (g := fun q => { q with ret := ret }) rfl fun _ => ⟨by simp [running], rfl, rfl⟩
  | sigcheck pc | woken pc =>
    unfold State.sigcheck State.exitproc
    split
    · split
      · exact h.slot (x := q) (g := fun q => { q with sig := 0 }) rfl fun _ => ⟨by simp [running], rfl, rfl⟩
      · exact h.slot (x := q) (g := fun q => { q with sig := 0, ret := 1 }) (by simp) fun _ => ⟨by simp [running], rfl, rfl⟩
    · exact same _ rfl
  | die free pc =>
    obtain ⟨used, parent, number⟩ := h
    have procs : (s.die c q).procs = s.procs.exitproc q := rfl
    have heir : s.procs.heir q z = some p := by simp [Procs.heir, parent, Ne.symm other]
    unfold State.Child
    rw [procs]
    by_cases e : z = q
    · subst e
      rw [Procs.exitproc_self]
      exact ⟨by simp, heir, number⟩
    · rw [Procs.exitproc_ne _ e]
      refine ⟨?_, heir, number⟩
      simp only
      split
      · simp
      · exact used
  | kill pid sig free pc =>
    unfold State.pget
    split <;> exact same _ rfl
  | @signal target pid sig pc =>
    exact h.slot (x := target) (g := fun q => { q with sig := sig }) rfl fun e => ⟨e ▸ h.1, rfl, rfl⟩
  | @rouse target pid free pc =>
    unfold State.rouse
    split
    · exact h.slot (x := target) (g := fun q => { q with state := .RUNNABLE }) rfl fun _ => ⟨by simp, rfl, rfl⟩
    · exact same _ rfl

theorem Orphans.step {l : Label C} (h : Orphans s) (b : Books s) (step : s.step l = some t) : Orphans t := by
  cases State.step_inv step with
  | act run does => exact does.orphans h b run
  | start | stop => exact h.same rfl
  | @pick c i p scan found =>
    let picked : Proc → Proc := fun q => { q with state := .RUNNING, chan := if (s.pc p).sleeps then none else q.chan }
    exact h.slot (x := p) (g := picked) rfl (by simp [picked])
  | wakeup a free =>
    intro x empty
    rcases s.procs.wakeupAcquired_cases (some (.addr a)) x with same | ⟨-, woken⟩
    · simp only [same] at empty ⊢
      exact h x empty
    · simp [woken] at empty

/-- The child of a sleeping process stays. -/
theorem State.Child.step {l : Label C} (h : s.Child p k z) (waits : s.Waits p k) (o : Orphans s) (b : Books s)
    (spared : Spared p s l) (step : s.step l = some t) : t.Child p k z := by
  cases State.step_inv step with
  | @act c q a _ run does =>
    have other : q ≠ p := by
      rintro rfl
      have asleep := waits.1
      simp [b.running c q run] at asleep
    exact does.child h o b run other spared
  | start | stop => exact h
  | @pick c i q scan found =>
    let picked : Proc → Proc := fun x => { x with state := .RUNNING, chan := if (s.pc q).sleeps then none else x.chan }
    exact h.slot (x := q) (g := picked) rfl fun _ => ⟨by simp [picked], rfl, rfl⟩
  | wakeup a free =>
    obtain ⟨used, parent, number⟩ := h
    rcases s.procs.wakeupAcquired_cases (some (.addr a)) z with same | ⟨-, woken⟩
    · simp only [State.Child, same]
      exact ⟨used, parent, number⟩
    · simp only [State.Child, woken]
      exact ⟨by simp, parent, number⟩

end Steps

end Aarch64Os.Kernel.Tasks
