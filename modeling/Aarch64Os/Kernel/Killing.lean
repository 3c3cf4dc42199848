import Mathlib
import Aarch64Os.Kernel.ExitStatus

/-!
# Killing (`kill`, `killproc`, `sigcheck`)

`killproc` sets `sig` without a lock and then wakes the process if it sleeps. `sleep` looks
at `sig` only after it has slept, and the slot that `pget` has found may have been freed,
and taken by another process, before `killproc` writes to it.
-/

namespace Aarch64Os.Kernel.Tasks
set_option autoImplicit false
open Base

variable {C : Type}

/-- A `killproc` that has set the signal of `p` has still to look whether `p` sleeps. -/
def State.Roused (s : State C) (p : ProcId) : Prop := ∃ q pid, s.pc q = .rousing pid p

/-- Nobody sleeps on a signal, but while the `killproc` that sends it is under way. -/
def State.Attended (s : State C) : Prop := ∀ p, (s.procs p).state = .SLEEPING → (s.procs p).sig ≠ 0 → s.Roused p

/-- Who falls asleep has no signal, or one whose `killproc` is still under way. -/
def Checked (s : State C) : Label C → Prop
  | .act c (.sleep _) => ∀ p, s.cpu c = .run p → (s.procs p).sig = 0 ∨ s.Roused p
  | .act c (.look _) => ∀ p k, s.cpu c = .run p → s.pc p = .loop k → reapable s.procs p k = none →
      (s.procs p).sig = 0 ∨ s.Roused p
  | _ => True

/-- No slot is freed while a `killproc` holds it. -/
def Held (s : State C) (l : Label C) : Prop :=
  ∀ z, Frees s l z → ∀ q pid, (∀ sig, s.pc q ≠ .killing pid z sig) ∧ s.pc q ≠ .rousing pid z

section Signals
variable {s t : State C} {c : C} {p : ProcId}

/-- A step that leaves every `killproc` under way as it is. -/
theorem State.Attended.keep (h : s.Attended) (rousing : ∀ q pid x, s.pc q = .rousing pid x → t.pc q = .rousing pid x)
    (asleep : ∀ x, (t.procs x).state = .SLEEPING → (t.procs x).sig ≠ 0 →
      (s.procs x).state = .SLEEPING ∧ (s.procs x).sig ≠ 0 ∨ s.Roused x ∨ t.Roused x) : t.Attended := by
  have still : ∀ x, s.Roused x → t.Roused x := by
    rintro x ⟨q, pid, at_q⟩
    exact ⟨q, pid, rousing q pid x at_q⟩
  intro x sleeping signal
  rcases asleep x sleeping signal with ⟨before, sent⟩ | before | now
  · exact still x (h x before sent)
  · exact still x before
  · exact now

/-- A step that changes one slot. -/
theorem State.Attended.slot (h : s.Attended) {x : ProcId} {g : Proc → Proc} (procs : t.procs = s.procs.set x g)
    (rousing : ∀ q pid y, s.pc q = .rousing pid y → t.pc q = .rousing pid y)
    (asleep : (g (s.procs x)).state = .SLEEPING → (g (s.procs x)).sig ≠ 0 →
      (s.procs x).state = .SLEEPING ∧ (s.procs x).sig ≠ 0 ∨ s.Roused x ∨ t.Roused x) : t.Attended := by
  refine h.keep rousing fun y sleeping signal => ?_
  by_cases e : y = x
  · subst e
    rw [procs, Procs.set_self] at sleeping signal
    exact asleep sleeping signal
  · rw [procs, Procs.set_ne _ _ e] at sleeping signal
    exact .inl ⟨sleeping, signal⟩

theorem State.Attended.same (h : s.Attended) (procs : t.procs = s.procs)
    (rousing : ∀ q pid y, s.pc q = .rousing pid y → t.pc q = .rousing pid y) : t.Attended := by
  refine h.keep rousing fun y sleeping signal => ?_
  rw [procs] at sleeping signal
  exact .inl ⟨sleeping, signal⟩

/-- A process that is not in `killproc` goes on. -/
theorem go_rousing (s : State C) {y : Pc} (away : ∀ pid x, s.pc p ≠ .rousing pid x) (q : ProcId) (pid : Int) (x : ProcId)
    (at_q : s.pc q = .rousing pid x) : (s.go p y).pc q = .rousing pid x := by
  have ne : q ≠ p := by
    rintro rfl
    exact away pid x at_q
  rwa [State.go_pc, if_neg ne]

theorem State.Attended.exitproc (h : s.Attended) (away : ∀ pid x, s.pc p ≠ .rousing pid x) (ret : Int) :
    (s.exitproc p ret).Attended := by
  unfold State.exitproc
  split
  · exact h.same rfl fun _ _ _ at_q => at_q
  · exact h.slot (x := p) (g := fun q => { q with ret := ret }) rfl (go_rousing (s.set p _) away)
      fun sleeping signal => .inl ⟨sleeping, signal⟩

theorem State.Attended.sigcheck (h : s.Attended) (away : ∀ pid x, s.pc p ≠ .rousing pid x) (pc : Pc) :
    (s.sigcheck p pc).Attended := by
  unfold State.sigcheck
  split
  · have cleared : (s.set p fun q => { q with sig := 0 }).Attended :=
      h.slot (x := p) (g := fun q => { q with sig := 0 }) rfl (fun _ _ _ at_q => at_q) (by simp)
    exact cleared.exitproc away 1
  · exact h.same rfl (go_rousing s away)

end Signals

section Steps
variable [DecidableEq C] {s t : State C} {c : C} {p : ProcId}

theorem State.Attended.sleep (h : s.Attended) (away : ∀ pid x, s.pc p ≠ .rousing pid x)
    (checked : (s.procs p).sig = 0 ∨ s.Roused p) (chan : Chan) (k : Option Wait) : (s.sleep c p chan k).Attended := by
  refine h.slot (x := p) (g := fun q => { q with chan := some chan, state := .SLEEPING }) rfl
    (go_rousing (s.set p _) away) fun _ signal => .inr (.inl ?_)
  exact checked.resolve_left signal

/-- What the process on a CPU does, when it checks before it sleeps. -/
theorem Does.attended {a : Act} (h : s.Attended) (b : Books s) (busy : Busy s) (run : s.cpu c = .run p) (checked : Checked s (.act c a))
    (does : Does s c p a t) : t.Attended := by
  cases does with
  | yield free pc =>
    exact h.slot (x := p) (g := fun q => { q with state := .RUNNABLE }) rfl (fun _ _ _ at_q => at_q) (by simp)
  | sleep a free pc => exact h.sleep (by simp [pc]) (checked p run) _ _
  | fork th free pc =>
    unfold State.newproc
    split
    · rename_i new procs claim
      obtain ⟨-, rfl⟩ := Procs.claim_some claim
      exact h.slot (x := new) (g := fun q => { q with state := .CREATED }) rfl (go_rousing s (by simp [pc])) (by simp)
    · exact h
  | @newpid new th kstack pgt pc =>
    refine h.slot (s.procs.fill_snd new s.nextpid kstack pgt) ?_ fun sleeping signal => .inl ⟨sleeping, signal⟩
    exact go_rousing s (by simp [pc])
  | @publish new th free pc =>
    have created := b.child p new (by rw [pc]; rfl)
    refine h.slot (x := new) (g := fun q => { q with state := .RUNNABLE, parent := some p, th := th || q.th }) rfl ?_ (by simp)
    intro q pid x at_q
    have first := go_rousing (s.set new fun q => { q with state := .RUNNABLE, parent := some p, th := th || q.th })
      (p := p) (y := .out) (by simp [pc]) q pid x at_q
    have ne : q ≠ new := by
      rintro rfl
      have := busy q (by rw [at_q]; rfl)
      simp [created] at this
    exact (Function.update_of_ne ne ..).trans first
  | @fail new free pc =>
    exact h.slot (x := new) (g := fun _ => Proc.zero) rfl (go_rousing s (by simp [pc])) (by simp [Proc.zero])
  | wait k pc => exact h.same rfl (go_rousing s (by simp [pc]))
  | @look k copied free pc =>
    unfold State.look
    split
    · rename_i z found
      exact h.slot (x := z) (g := fun _ => Proc.zero) rfl (go_rousing s (by simp [pc])) (by simp [Proc.zero])
    · exact h.sleep (by simp [pc]) (checked p k run pc ‹_›) _ _
  | exit ret pc => exact h.exitproc (by simp [pc]) ret
  | sigcheck pc | woken pc => exact h.sigcheck (by simp [pc]) _
  | die free pc =>
    refine h.keep (go_rousing s (by simp [pc])) fun x sleeping signal => .inl ?_
    have procs : (s.die c p).procs = s.procs.exitproc p := rfl
    rw [procs] at sleeping signal
    have ne : x ≠ p := fun e => by simp [e, Procs.exitproc_self] at sleeping
    rw [Procs.exitproc_ne _ ne] at sleeping signal
    refine ⟨?_, signal⟩
    simp only at sleeping
    split at sleeping
    · simp at sleeping
    · exact sleeping
  | kill pid sig free pc =>
    unfold State.pget
    split
    · exact h.same rfl (go_rousing s (by simp [pc]))
    · exact h
  | @signal target pid sig pc =>
    refine h.slot (x := target) (g := fun q => { q with sig := sig }) rfl (go_rousing (s.set target _) (by simp [pc]))
      fun _ _ => .inr (.inr ⟨p, pid, ?_⟩)
    exact Function.update_self ..
  | @rouse target pid free pc =>
    intro x sleeping signal
    have others : x ≠ target ∧ (s.procs x).state = .SLEEPING ∧ (s.procs x).sig ≠ 0 := by
      unfold State.rouse at sleeping signal
      split at sleeping
      · rename_i asleep
        simp only [asleep, if_true, State.go_procs, State.set_procs, Procs.set_apply] at sleeping signal
        grind
      · rename_i awake
        simp only [awake, if_false, State.go_procs] at sleeping signal
        exact ⟨fun e => awake (e ▸ sleeping), sleeping, signal⟩
    obtain ⟨ne, before, sent⟩ := others
    obtain ⟨q, pid', at_q⟩ := h x before sent
    have other : q ≠ p := by
      rintro rfl
      rw [pc] at at_q
      exact ne (Pc.rousing.inj at_q).2.symm
    refine ⟨q, pid', ?_⟩
    unfold State.rouse
    split <;> exact (Function.update_of_ne other ..).trans at_q

/-- A step that meets the condition. -/
theorem State.Attended.step {l : Label C} (h : s.Attended) (b : Books s) (busy : Busy s) (checked : Checked s l)
    (step : s.step l = some t) : t.Attended := by
  cases State.step_inv step with
  | act run does => exact does.attended h b busy run checked
  | start free idle => exact h.same rfl fun _ _ _ at_q => at_q
  | @pick c i p scan found =>
    let picked : Proc → Proc := fun q => { q with state := .RUNNING, chan := if (s.pc p).sleeps then none else q.chan }
    refine h.slot (x := p) (g := picked) rfl (fun q pid x at_q => ?_) (by simp [picked])
    by_cases e : q = p
    · subst e
      simp [State.pick, at_q, Pc.resume]
    · exact (Function.update_of_ne e ..).trans at_q
  | stop scan none => exact h.same rfl fun _ _ _ at_q => at_q
  | wakeup a free =>
    refine h.keep (fun _ _ _ at_q => at_q) fun x sleeping signal => .inl ?_
    rcases s.procs.wakeupAcquired_cases (some (.addr a)) x with same | ⟨-, woken⟩
    · simp only [same] at sleeping signal
      exact ⟨sleeping, signal⟩
    · simp [woken] at sleeping

end Steps

/-- A `killproc` for the process with number `pid` has found slot `z`, and has still to write to it. -/
def State.Aims (s : State C) (q : ProcId) (pid : Int) (z : ProcId) : Prop :=
  (∃ sig, s.pc q = .killing pid z sig) ∨ s.pc q = .rousing pid z

/-- A slot has no number before `newpid`; what `killproc` holds and has changed is the
process with its number. -/
structure Kills (s : State C) : Prop where
  unused : ∀ q, (s.procs q).state = .UNUSED → (s.procs q).pid = 0
  newborn : ∀ q new th, s.pc q = .newborn new th → (s.procs new).pid = 0
  aimed : ∀ q pid z, s.Aims q pid z → (s.procs z).pid = pid ∧ (pid = 0 → z = initproc)
  log : ∀ pid target, .kill pid target ∈ s.log → target.pid = pid

section Targets
variable {s t : State C} {p : ProcId}

/-- A step that takes a number from no slot a `killproc` holds. -/
theorem Kills.keep (h : Kills s) (pid : ∀ q, (t.procs q).pid = (s.procs q).pid ∨ ∀ r n, ¬ s.Aims r n q)
    (unused : ∀ q, (t.procs q).state = .UNUSED →
      (s.procs q).state = .UNUSED ∧ (t.procs q).pid = (s.procs q).pid ∨ (t.procs q).pid = 0)
    (newborn : ∀ q new th, t.pc q = .newborn new th → (t.procs new).pid = 0)
    (aims : ∀ q n z, t.Aims q n z → s.Aims q n z)
    (log : ∀ n target, .kill n target ∈ t.log → .kill n target ∈ s.log ∨ target.pid = n) : Kills t := by
  refine ⟨fun q free => ?_, newborn, fun q n z aim => ?_, fun n target mem => ?_⟩
  · rcases unused q free with ⟨before, same⟩ | zero
    · rw [same]
      exact h.unused q before
    · exact zero
  · have before := aims q n z aim
    rcases pid z with same | nobody
    · rw [same]
      exact h.aimed q n z before
    · exact absurd before (nobody q n)
  · rcases log n target mem with old | right
    · exact h.log n target old
    · exact right

/-- A step that changes one slot, but not its number. -/
theorem Kills.slot (h : Kills s) {x : ProcId} {g : Proc → Proc} (procs : t.procs = s.procs.set x g)
    (pid : (g (s.procs x)).pid = (s.procs x).pid)
    (unused : (g (s.procs x)).state = .UNUSED → (s.procs x).state = .UNUSED)
    (newborn : ∀ q new th, t.pc q = .newborn new th → s.pc q = .newborn new th)
    (aims : ∀ q n z, t.Aims q n z → s.Aims q n z)
    (log : ∀ n target, .kill n target ∈ t.log → .kill n target ∈ s.log ∨ target.pid = n) : Kills t := by
  have same : ∀ q, (t.procs q).pid = (s.procs q).pid := by
    intro q
    rw [procs, Procs.set_apply]
    split
    · rw [pid, ‹q = x›]
    · rfl
  refine h.keep (fun q => .inl (same q)) (fun q free => .inl ⟨?_, same q⟩) (fun q new th at_q => ?_) aims log
  · rw [procs, Procs.set_apply] at free
    split at free
    · rw [‹q = x›]
      exact unused free
    · exact free
  · rw [same]
    exact h.newborn q new th (newborn q new th at_q)

/-- A process goes to a place that is neither in `newproc` nor in `killproc`. -/
theorem go_places (s : State C) (p : ProcId) (pc : Pc) (born : ∀ new th, pc ≠ .newborn new th)
    (away : (∀ n z sig, pc ≠ .killing n z sig) ∧ ∀ n z, pc ≠ .rousing n z) :
    (∀ q new th, (s.go p pc).pc q = .newborn new th → s.pc q = .newborn new th) ∧
    ∀ q n z, (s.go p pc).Aims q n z → s.Aims q n z := by
  refine ⟨fun q new th at_q => ?_, fun q n z aim => ?_⟩
  · rw [State.go_pc] at at_q
    split at at_q
    · exact absurd at_q (born new th)
    · exact at_q
  · simp only [State.Aims, State.go_pc] at aim
    split at aim
    · rcases aim with ⟨sig, eq⟩ | eq
      · exact absurd eq (away.1 n z sig)
      · exact absurd eq (away.2 n z)
    · exact aim

theorem Kills.same (h : Kills s) (procs : t.procs = s.procs)
    (newborn : ∀ q new th, t.pc q = .newborn new th → s.pc q = .newborn new th)
    (aims : ∀ q n z, t.Aims q n z → s.Aims q n z) (log : t.log = s.log) : Kills t := by
  refine h.slot (x := initproc) (g := id) (by simp [procs, Procs.set]) rfl id newborn aims fun n target mem => .inl ?_
  rwa [log] at mem

theorem Kills.exitproc (h : Kills s) (p : ProcId) (ret : Int) : Kills (s.exitproc p ret) := by
  unfold State.exitproc
  split
  · exact h.same rfl (fun _ _ _ at_q => at_q) (fun _ _ _ aim => aim) rfl
  · obtain ⟨newborn, aims⟩ := go_places (s.set p fun q => { q with ret := ret }) p .exiting (by simp) (by simp)
    exact h.slot (x := p) (g := fun q => { q with ret := ret }) rfl rfl id newborn aims (by simp +contextual)

theorem Kills.sigcheck (h : Kills s) (p : ProcId) {pc : Pc} (born : ∀ new th, pc ≠ .newborn new th)
    (away : (∀ n z sig, pc ≠ .killing n z sig) ∧ ∀ n z, pc ≠ .rousing n z) : Kills (s.sigcheck p pc) := by
  unfold State.sigcheck
  split
  · have cleared : Kills (s.set p fun q => { q with sig := 0 }) :=
      h.slot (x := p) (g := fun q => { q with sig := 0 }) rfl rfl id (fun _ _ _ at_q => at_q) (fun _ _ _ aim => aim)
        fun _ _ => .inl
    exact cleared.exitproc p 1
  · obtain ⟨newborn, aims⟩ := go_places s p _ born away
    exact h.same rfl newborn aims rfl

/-- A slot is freed that no `killproc` holds. -/
theorem Kills.free (h : Kills s) {z : ProcId} (held : ∀ q n, ¬ s.Aims q n z) (procs : t.procs = s.procs.freeproc z)
    (newborn : ∀ q new th, t.pc q = .newborn new th → s.pc q = .newborn new th) (aims : ∀ q n z, t.Aims q n z → s.Aims q n z)
    (log : ∀ n target, .kill n target ∈ t.log → .kill n target ∈ s.log ∨ target.pid = n) : Kills t := by
  have freed : ∀ q, q = z ∧ (t.procs q).pid = 0 ∨ q ≠ z ∧ t.procs q = s.procs q := by
    intro q
    rw [procs, Procs.freeproc, Procs.set_apply]
    split
    · exact .inl ⟨‹_›, rfl⟩
    · exact .inr ⟨‹_›, rfl⟩
  refine h.keep (fun q => ?_) (fun q unused => ?_) (fun q new th at_q => ?_) aims log
  · rcases freed q with ⟨rfl, -⟩ | ⟨-, same⟩
    · exact .inr held
    · exact .inl (by rw [same])
  · rcases freed q with ⟨-, zero⟩ | ⟨-, same⟩
    · exact .inr zero
    · rw [same] at unused ⊢
      exact .inl ⟨unused, rfl⟩
  · rcases freed new with ⟨-, zero⟩ | ⟨-, same⟩
    · exact zero
    · rw [same]
      exact h.newborn q new th (newborn q new th at_q)

/-- Slot 0 is the first one with number 0. -/
theorem pget_zero (first : (s.procs initproc).pid = 0) {z : ProcId} (found : (s.procs.find fun q => q.pid = 0) = some z) :
    z = initproc := by
  have range : List.finRange NPROC = 0 :: (List.finRange 255).map Fin.succ := List.finRange_succ
  have zero : (s.procs 0).pid = 0 := first
  rw [Procs.find, range, List.find?_cons_of_pos (by simp [zero])] at found
  exact (Option.some.inj found).symm

end Targets

section Steps
variable [DecidableEq C] {s t : State C} {c : C} {p : ProcId}

theorem Kills.sleep (h : Kills s) (chan : Chan) (k : Option Wait) : Kills (s.sleep c p chan k) := by
  obtain ⟨newborn, aims⟩ := go_places (s.set p fun q => { q with chan := some chan, state := .SLEEPING })
    p (.asleep k) (by simp) (by simp)
  exact h.slot (x := p) (g := fun q => { q with chan := some chan, state := .SLEEPING }) rfl rfl (by simp) newborn aims
    fun _ _ => .inl

/-- What the process on a CPU does, when it frees no slot a `killproc` holds. -/
theorem Does.kills {a : Act} (h : Kills s) (b : Books s) (l : Lineage s) (run : s.cpu c = .run p)
    (held : Held s (.act c a)) (does : Does s c p a t) : Kills t := by
  have running := b.running c p run
  cases does with
  | yield free pc =>
    exact h.slot (x := p) (g := fun q => { q with state := .RUNNABLE }) rfl rfl (by simp) (fun _ _ _ at_q => at_q)
      (fun _ _ _ aim => aim) fun _ _ => .inl
  | sleep a free pc => exact h.sleep _ _
  | fork th free pc =>
    unfold State.newproc
    split
    · rename_i new procs claim
      obtain ⟨unused, rfl⟩ := Procs.claim_some claim
      have same : ∀ q, (s.procs.set new (fun q => { q with state := .CREATED }) q).pid = (s.procs q).pid := by
        intro q
        rw [Procs.set_apply]
        split
        · rw [‹q = new›]
        · rfl
      refine h.keep (fun q => .inl (same q)) (fun q free => .inl ⟨?_, same q⟩) (fun q x th' at_q => ?_) (fun q n z aim => ?_)
        fun _ _ => .inl
      · simp only [Procs.set_apply] at free
        split at free
        · simp at free
        · exact free
      · refine (same x).trans ?_
        have at_q : (s.go p (.newborn new th)).pc q = .newborn x th' := at_q
        rw [State.go_pc] at at_q
        split at at_q
        · obtain ⟨rfl, -⟩ := Pc.newborn.inj at_q
          exact h.unused new unused
        · exact h.newborn q x th' at_q
      · have aim : (s.go p (.newborn new th)).Aims q n z := aim
        simp only [State.Aims, State.go_pc] at aim
        split at aim
        · simp at aim
        · exact aim
    · exact h
  | @newpid new th kstack pgt pc =>
    have created := b.child p new (by rw [pc]; rfl)
    -- who looks for number 0 has found `initproc`
    have nobody : ∀ q n, ¬ s.Aims q n new := by
      intro q n aim
      obtain ⟨number, first⟩ := h.aimed q n new aim
      rw [h.newborn p new th pc] at number
      obtain rfl := first number.symm
      have := l.first.2
      simp [created, living] at this
    have goes : ∀ got : Option ProcId, (∀ x th', (if got.isSome then Pc.copying new th else .out) ≠ .newborn x th') ∧
        (∀ n z sig, (if got.isSome then Pc.copying new th else .out) ≠ .killing n z sig) ∧
        ∀ n z, (if got.isSome then Pc.copying new th else .out) ≠ .rousing n z := by
      rintro (_ | _) <;> simp
    obtain ⟨born, away⟩ := goes (s.procs.fill new s.nextpid kstack pgt).1
    obtain ⟨newborn, aims⟩ := go_places s p _ born away
    have fill := s.procs.fill_snd new s.nextpid kstack pgt
    have others : ∀ q, q ≠ new → (s.procs.fill new s.nextpid kstack pgt).2 q = s.procs q := by
      intro q ne
      rw [fill, Procs.set_ne _ _ ne]
    refine h.keep (fun q => ?_) (fun q free => ?_) (fun q x th' at_q => ?_) aims fun _ _ => .inl
    · by_cases e : q = new
      · exact .inr (e ▸ nobody)
      · exact .inl (congrArg Proc.pid (others q e))
    · by_cases e : q = new
      · have free : ((s.procs.fill new s.nextpid kstack pgt).2 q).state = .UNUSED := free
        rw [fill, e, Procs.set_self] at free
        simp [created] at free
      · have free : ((s.procs.fill new s.nextpid kstack pgt).2 q).state = .UNUSED := free
        rw [others q e] at free
        exact .inl ⟨free, congrArg Proc.pid (others q e)⟩
    · have before := newborn q x th' at_q
      have other : x ≠ new := by
        rintro rfl
        obtain rfl := b.parents q p x (by rw [before]; rfl) (by rw [pc]; rfl)
        have at_q : (s.go q (if (s.procs.fill x s.nextpid kstack pgt).1.isSome then .copying x th else .out)).pc q = .newborn x th' := at_q
        rw [State.go_pc, if_pos rfl] at at_q
        exact born _ _ at_q
      exact (congrArg Proc.pid (others x other)).trans (h.newborn q x th' before)
  | @publish new th free pc =>
    obtain ⟨newborn, aims⟩ := go_places (s.set new fun q => { q with state := .RUNNABLE, parent := some p, th := th || q.th })
      p .out (by simp) (by simp)
    obtain ⟨newborn', aims'⟩ := go_places ((s.set new fun q => { q with state := .RUNNABLE, parent := some p, th := th || q.th }).go p .out)
      new .out (by simp) (by simp)
    exact h.slot (x := new) (g := fun q => { q with state := .RUNNABLE, parent := some p, th := th || q.th }) rfl rfl (by simp)
      (fun q x th' at_q => newborn q x th' (newborn' q x th' at_q)) (fun q n z aim => aims q n z (aims' q n z aim)) fun _ _ => .inl
  | @fail new free pc =>
    obtain ⟨newborn, aims⟩ := go_places { s with procs := s.procs.freeproc new } p .out (by simp) (by simp)
    refine h.free (z := new) (fun q n aim => ?_) rfl newborn aims fun _ _ => .inl
    obtain ⟨killing, rousing⟩ := held new ⟨p, run, pc⟩ q n
    rcases aim with ⟨sig, at_q⟩ | at_q
    · exact killing sig at_q
    · exact rousing at_q
  | wait k pc =>
    obtain ⟨newborn, aims⟩ := go_places s p (.loop k) (by simp) (by simp)
    exact h.same rfl newborn aims rfl
  | @look k copied free pc =>
    unfold State.look
    split
    · rename_i z found
      obtain ⟨newborn, aims⟩ := go_places s p .out (by simp) (by simp)
      refine h.free (z := z) (fun q n aim => ?_) rfl newborn aims fun n target mem => ?_
      · obtain ⟨killing, rousing⟩ := held z ⟨p, k, run, pc, found⟩ q n
        rcases aim with ⟨sig, at_q⟩ | at_q
        · exact killing sig at_q
        · exact rousing at_q
      · exact .inl (by simpa [State.reap] using mem)
    · exact h.sleep _ _
  | exit ret pc => exact h.exitproc p ret
  | sigcheck pc => exact h.sigcheck p (by simp) (by simp)
  | @woken k pc => exact h.sigcheck p (by cases k <;> simp) (by cases k <;> simp)
  | die free pc =>
    obtain ⟨newborn, aims⟩ := go_places { s with procs := s.procs.exitproc p } p .dead (by simp) (by simp)
    have procs : (s.die c p).procs = s.procs.exitproc p := rfl
    have same : ∀ q, ((s.procs.exitproc p) q).pid = (s.procs q).pid := by
      intro q
      by_cases e : q = p
      · simp [e, Procs.exitproc_self]
      · simp [Procs.exitproc_ne _ e]
    refine h.keep (fun q => .inl (same q)) (fun q free => .inl ⟨?_, same q⟩) (fun q new th at_q => ?_) aims fun _ _ => .inl
    · rw [procs] at free
      by_cases e : q = p
      · simp [e, Procs.exitproc_self] at free
      · rw [Procs.exitproc_ne _ e] at free
        simp only at free
        split at free
        · simp at free
        · exact free
    · exact (same new).trans (h.newborn q new th (newborn q new th at_q))
  | kill pid sig free pc =>
    unfold State.pget
    split
    · rename_i target found
      have number : (s.procs target).pid = pid := by simpa using Procs.find_some found
      refine ⟨h.unused, fun q new th at_q => ?_, fun q n z aim => ?_, h.log⟩
      · rw [State.go_pc] at at_q
        split at at_q
        · simp at at_q
        · exact h.newborn q new th at_q
      · simp only [State.Aims, State.go_pc] at aim
        split at aim
        · obtain ⟨rfl, rfl⟩ : pid = n ∧ target = z := by simpa using aim
          refine ⟨number, ?_⟩
          rintro rfl
          exact pget_zero l.first.1 found
        · exact h.aimed q n z aim
    · exact h
  | @signal target pid sig pc =>
    have number := (h.aimed p pid target (.inl ⟨sig, pc⟩)).1
    refine h.slot (x := target) (g := fun q => { q with sig := sig }) rfl rfl id (fun q new th at_q => ?_)
      (fun q n z aim => ?_) fun n x mem => ?_
    · have at_q : (s.go p (.rousing pid target)).pc q = .newborn new th := at_q
      rw [State.go_pc] at at_q
      split at at_q
      · simp at at_q
      · exact at_q
    · have aim : (s.go p (.rousing pid target)).Aims q n z := aim
      simp only [State.Aims, State.go_pc] at aim
      split at aim
      · obtain ⟨rfl, rfl⟩ : pid = n ∧ target = z := by simpa using aim
        exact .inl ⟨sig, ‹q = p› ▸ pc⟩
      · exact aim
    · rcases List.mem_cons.1 mem with eq | mem
      · obtain ⟨rfl, rfl⟩ := Event.kill.inj eq
        exact .inr number
      · exact .inl mem
  | @rouse target pid free pc =>
    have number := (h.aimed p pid target (.inr pc)).1
    obtain ⟨newborn, aims⟩ := go_places s p .out (by simp) (by simp)
    unfold State.rouse
    split
    · refine h.slot (x := target) (g := fun q => { q with state := .RUNNABLE }) rfl rfl (by simp) newborn aims fun n x mem => ?_
      rcases List.mem_cons.1 mem with eq | mem
      · obtain ⟨rfl, rfl⟩ := Event.kill.inj eq
        exact .inr number
      · exact .inl mem
    · exact h.same rfl newborn aims rfl

/-- A step that meets the condition. -/
theorem Kills.step {l : Label C} (h : Kills s) (b : Books s) (lineage : Lineage s) (held : Held s l) (step : s.step l = some t) :
    Kills t := by
  cases State.step_inv step with
  | act run does => exact does.kills h b lineage run held
  | start free idle => exact h.same rfl (fun _ _ _ at_q => at_q) (fun _ _ _ aim => aim) rfl
  | @pick c i p scan found =>
    let picked : Proc → Proc := fun q => { q with state := .RUNNING, chan := if (s.pc p).sleeps then none else q.chan }
    refine h.slot (x := p) (g := picked) rfl rfl (by simp [picked]) (fun q new th at_q => ?_) (fun q n z aim => ?_) fun _ _ => .inl
    · rw [State.pick_pc] at at_q
      split at at_q
      · rw [‹q = p›]
        cases at_p : s.pc p <;> simp_all [Pc.resume]
      · exact at_q
    · simp only [State.Aims, State.pick_pc] at aim
      split at aim
      · rw [State.Aims, ‹q = p›]
        cases at_p : s.pc p <;> simp_all [Pc.resume]
      · exact aim
  | stop scan none => exact h.same rfl (fun _ _ _ at_q => at_q) (fun _ _ _ aim => aim) rfl
  | wakeup a free =>
    have woken : ∀ q, (s.procs.wakeupAcquired (some (.addr a)) q).pid = (s.procs q).pid ∧
        ((s.procs.wakeupAcquired (some (.addr a)) q).state = .UNUSED → (s.procs q).state = .UNUSED) := by
      intro q
      rcases s.procs.wakeupAcquired_cases (some (.addr a)) q with same | ⟨asleep, woken⟩
      · simp [same]
      · simp [woken]
    refine h.keep (fun q => .inl (woken q).1) (fun q free => .inl ⟨(woken q).2 free, (woken q).1⟩) (fun q new th at_q => ?_)
      (fun _ _ _ aim => aim) fun _ _ => .inl
    exact (woken new).1.trans (h.newborn q new th at_q)

/-- **`kill` hits the process with its number.** When no slot is freed that a `killproc`
holds, the slot has the number from `pget` on, and every change is to it. -/
theorem kill_hits_its_process (h : (procSystem C).Via Held s) :
    (∀ q pid z, s.Aims q pid z → (s.procs z).pid = pid) ∧ ∀ pid target, .kill pid target ∈ s.log → target.pid = pid := by
  have all : Sound s ∧ Kills s := by
    refine h.invariant (I := fun s => Sound s ∧ Kills s) ?_ ?_
    · rintro s rfl
      refine ⟨sound (.init rfl), ⟨fun q unused => ?_, ?_, ?_, ?_⟩⟩
      · by_cases e : q = initproc
        · simp [State.boot, e] at unused
        · simp [State.boot, Procs.set_ne _ _ e, Proc.zero]
      all_goals simp [State.boot, State.Aims]
    · rintro s l t ⟨⟨books, busy, ledger, lineage⟩, kills⟩ held step
      exact ⟨⟨books.step step, busy.step books step, ledger.step books busy step, lineage.step books ledger step⟩,
        kills.step books lineage held step⟩
  exact ⟨fun q pid z aim => (all.2.aimed q pid z aim).1, all.2.log⟩

end Steps

/-- `initproc` kills its child, which sleeps. -/
theorem kill_hits_its_process_sleeper : ∃ s : State (Fin 1), s.Aims initproc 1 1 ∧ (s.procs 1).pid = 1 ∧
    ∃ target, .kill 1 target ∈ s.log ∧ target.pid = 1 := by
  have init : (procSystem (Fin 1)).Via Held State.boot := .init rfl
  obtain ⟨s, run, aims, target, killed⟩ : ∃ s : State (Fin 1), (procSystem (Fin 1)).run State.boot
      [.start 0, .scan 0, .act 0 (.fork false), .act 0 (.newpid (some 1) (some 2)), .act 0 .publish, .act 0 .yield,
        .scan 0, .act 0 (.sleep 5), .scan 0, .start 0, .scan 0, .act 0 (.kill 1 9), .act 0 .signal] = some s ∧
      s.pc initproc = .rousing 1 1 ∧ ∃ target, .kill 1 target ∈ s.log :=
    ⟨_, rfl, by decide +kernel, _, List.mem_cons_self⟩
  have reached : (procSystem (Fin 1)).Via Held s := init.run_of (by simp [Held, Frees]) run
  obtain ⟨slot, log⟩ := kill_hits_its_process reached
  exact ⟨s, .inr aims, slot _ _ _ (.inr aims), target, killed, log 1 target killed⟩

/-- While a process is about to kill process 1, that exits, is reaped by `initproc`, and its
slot becomes process 3. -/
def slotReused : List (Label (Fin 2)) :=
  [.start 0, .scan 0, .act 0 (.fork false), .act 0 (.newpid (some 1) (some 2)), .act 0 .publish,
    .act 0 (.fork false), .act 0 (.newpid (some 3) (some 4)), .act 0 .publish, .act 0 .yield, .scan 0,
    .start 1, .scan 1, .act 1 (.wait (.wait false)), .act 1 (.look true), .scan 1, .act 1 (.kill 1 9),
    .act 0 (.exit 0), .act 0 .die, .scan 0, .start 0, .scan 0, .act 0 .sigcheck, .act 0 (.look true),
    .act 0 (.fork false), .act 0 (.newpid (some 5) (some 6)), .act 0 .publish, .act 1 .signal]

/-- `kill(1)` sets the signal of process 3. -/
theorem kill_hits_another_process : ∃ s : State (Fin 2), (procSystem (Fin 2)).Reach s ∧
    (∃ target, .kill 1 target ∈ s.log ∧ target.pid = 3) ∧ (s.procs 1).pid = 3 ∧ (s.procs 1).sig = 9 := by
  have init : (procSystem (Fin 2)).Reach State.boot := .init rfl
  obtain ⟨s, run, killed, pid, signal⟩ : ∃ s : State (Fin 2), (procSystem (Fin 2)).run State.boot slotReused = some s ∧
      (∃ target, .kill 1 target ∈ s.log ∧ target.pid = 3) ∧ (s.procs 1).pid = 3 ∧ (s.procs 1).sig = 9 :=
    ⟨_, rfl, ⟨_, List.mem_cons_self, by decide +kernel⟩, by decide +kernel, by decide +kernel⟩
  exact ⟨s, init.run run, killed, pid, signal⟩

end Aarch64Os.Kernel.Tasks
