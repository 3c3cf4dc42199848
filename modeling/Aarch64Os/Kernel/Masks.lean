import Aarch64Os.Kernel.Switching

/-!
# The interrupt mask of a thread across a `cswitch`

`intr_enabled` belongs to a CPU: it is what the last outermost `acquire` on it has found. `cswitch` does not
save it, so a thread that has been switched to takes what the one before has left. As long as that is what
it would have saved itself, each outermost `release` gives back the mask of the outermost `acquire`.
-/

namespace Aarch64Os.Kernel.Cpus
set_option autoImplicit false
open Base Tasks

section Masks
variable {C : Type} [DecidableEq C]

/-- The thread that the next statement on a CPU switches to. -/
def State.heir (s : State C) (c : C) : Option (Thread C) :=
  match (s.cpu c).proc, s.code (s.me c) with
  | some _, op :: _ => if op.switches then some (.sched c) else none
  | none, .scan i :: _ => (next s.procs i).map .proc
  | _, _ => none

/-- A thread that a CPU switches to has found the mask that the CPU has saved. -/
def Matched (s : State C) : Label C → Prop
  | .op c => ∀ T ∈ s.heir c, ∀ b ∈ s.before T, (s.cpu c).intr_enabled = b
  | _ => True

instance (s : State C) (l : Label C) : Decidable (Matched s l) :=
  match l with
  | .op c => inferInstanceAs (Decidable (∀ T ∈ s.heir c, ∀ b ∈ s.before T, (s.cpu c).intr_enabled = b))
  | .work .. | .poll .. | .unlink .. | .call .. | .svc _ | .irq .. => isTrue trivial

/-- A CPU that holds a lock has saved the mask that its thread has found. -/
def State.Right (s : State C) : Prop :=
  ∀ c, (s.cpu c).cli_depth ≠ 0 → ∀ b ∈ s.before (s.me c), (s.cpu c).intr_enabled = b

variable {s t : State C} {c : C} {p : ProcId} {k : List Op} {op : Op}

omit [DecidableEq C] in
/-- A step that leaves the other CPUs and the history of their threads alone. -/
theorem State.Right.step (h : s.Right) (cpu : ∀ d ≠ c, t.cpu d = s.cpu d) (before : ∀ d ≠ c, t.before (s.me d) = s.before (s.me d))
    (here : (t.cpu c).cli_depth ≠ 0 → ∀ b ∈ t.before (t.me c), (t.cpu c).intr_enabled = b) : t.Right := by
  intro d deep b mem
  rcases eq_or_ne d c with rfl | ne
  · exact here deep b mem
  · have same : t.me d = s.me d := State.me_same (congrArg Cpu.proc (cpu d ne))
    rw [same, before d ne] at mem
    rw [cpu d ne] at deep ⊢
    exact h d deep b mem

omit [DecidableEq C] in
/-- One that does not write to `cli_depth`, `intr_enabled` or the history. -/
theorem State.Right.same (h : s.Right) (cpu : ∀ d, (t.cpu d).proc = (s.cpu d).proc ∧ (t.cpu d).cli_depth = (s.cpu d).cli_depth ∧
    (t.cpu d).intr_enabled = (s.cpu d).intr_enabled) (before : t.before = s.before) : t.Right := by
  intro d deep b mem
  obtain ⟨proc, depth, intr⟩ := cpu d
  rw [State.me_same proc, before] at mem
  rw [depth] at deep
  rw [intr]
  exact h d deep b mem

/-- One that changes the interrupts of the CPU. -/
theorem State.Right.irq (h : s.Right) (on : Bool) {user : ProcId → Bool} :
    State.Right { (s.go c k).setCpu c { s.cpu c with irq := on } with user } := by
  refine h.same (fun d => ?_) rfl
  rcases eq_or_ne d c with rfl | ne
  · change (Function.update s.cpu d { s.cpu d with irq := on } d).proc = _ ∧
      (Function.update s.cpu d { s.cpu d with irq := on } d).cli_depth = _ ∧ (Function.update s.cpu d { s.cpu d with irq := on } d).intr_enabled = _
    rw [Function.update_self]
    exact ⟨rfl, rfl, rfl⟩
  · have same : ({ (s.go c k).setCpu c { s.cpu c with irq := on } with user } : State C).cpu d = s.cpu d := Function.update_of_ne ne ..
    rw [same]
    exact ⟨rfl, rfl, rfl⟩

/-- `pushcli` notes what it saves. -/
theorem State.Right.pushcli (h : s.Right) (inv : Inv s) : ((s.go c k).pushcli c).Right := by
  have here : ((s.go c k).pushcli c).cpu c = (s.cpu c).pushcli := Function.update_self ..
  have me : ((s.go c k).pushcli c).me c = s.me c := State.me_same (by rw [here]; exact (s.cpu c).pushcli_spec.1)
  refine h.step (c := c) (fun d ne => Function.update_of_ne ne ..) (fun d ne => ?_) fun _ b mem => ?_
  · change (if (s.cpu c).cli_depth = 0 then Function.update s.before (s.me c) (some (s.cpu c).irq) else s.before) (s.me d) = _
    split
    · exact Function.update_of_ne (inv.apart ne) ..
    · rfl
  · rw [me] at mem
    rw [here]
    change b ∈ (if (s.cpu c).cli_depth = 0 then Function.update s.before (s.me c) (some (s.cpu c).irq) else s.before) (s.me c) at mem
    unfold Cpu.pushcli
    split
    case isTrue zero =>
      rw [if_pos zero, Function.update_self] at mem
      exact Option.some.inj mem
    case isFalse deep =>
      rw [if_neg deep] at mem
      exact h c deep b mem

theorem State.Right.popcli (h : s.Right) : (s.popcli c k).Right := by
  unfold State.popcli
  split
  · exact h
  · rename_i some
    have here : ((s.go c k).setCpu c (s.cpu c).popcli).cpu c = (s.cpu c).popcli := Function.update_self ..
    refine h.step (c := c) (fun d ne => Function.update_of_ne ne ..) (fun _ _ => rfl) fun deep b mem => ?_
    have me : ((s.go c k).setCpu c (s.cpu c).popcli).me c = s.me c := State.me_same (by rw [here]; exact (s.cpu c).popcli_spec.1)
    rw [me] at mem
    have same : (s.cpu c).popcli.intr_enabled = (s.cpu c).intr_enabled := by
      unfold Cpu.popcli
      split <;> rfl
    rw [here, same]
    exact h c some b mem

/-- A process leaves its CPU to a scheduler that has found the mask. -/
theorem State.Right.leave (h : s.Right) {procs : Procs} (matched : ∀ b ∈ s.before (.sched c), (s.cpu c).intr_enabled = b) :
    ((s.go c k).leave c procs).Right := by
  have here : ((s.go c k).leave c procs).cpu c = { s.cpu c with proc := none } := Function.update_self ..
  refine h.step (c := c) (fun d ne => Function.update_of_ne ne ..) (fun _ _ => rfl) fun _ b mem => ?_
  have me : ((s.go c k).leave c procs).me c = .sched c := State.me_sched (by rw [here])
  rw [me] at mem
  rw [here]
  exact matched b mem

/-- The scheduler picks a process that has found the mask. -/
theorem State.Right.pick (h : s.Right) (matched : ∀ b ∈ s.before (.proc p), (s.cpu c).intr_enabled = b) : ((s.go c k).pick c p).Right := by
  have here : ((s.go c k).pick c p).cpu c = { s.cpu c with proc := some p } := Function.update_self ..
  refine h.step (c := c) (fun d ne => Function.update_of_ne ne ..) (fun _ _ => rfl) fun _ b mem => ?_
  have me : ((s.go c k).pick c p).me c = .proc p := State.me_proc (by rw [here])
  rw [me] at mem
  rw [here]
  exact matched b mem

/-- A child has no history. -/
theorem State.Right.publish (h : s.Right) (inv : Inv s) {new : ProcId} {th : Bool} (step : s.publish c k p new th = some t) : t.Right := by
  unfold State.publish at step
  split at step
  case isFalse => cases step
  case isTrue created =>
  obtain rfl := Option.some.inj step
  intro d deep b mem
  have other : s.me d ≠ .proc new := by
    cases on : (s.cpu d).proc with
    | none =>
      rw [State.me_sched on]
      intro same
      cases same
    | some q =>
      rw [State.me_proc on]
      intro same
      obtain rfl := Thread.proc.inj same
      rw [inv.running d _ on] at created
      cases created
  change b ∈ Function.update s.before (.proc new) none (s.me d) at mem
  rw [Function.update_of_ne other] at mem
  exact h d deep b mem

/-- A statement of the scheduler. -/
theorem State.Right.schedOp (h : s.Right) (off : (s.cpu c).proc = none) (now : s.code (s.me c) = op :: k)
    (matched : ∀ T ∈ s.heir c, ∀ b ∈ s.before T, (s.cpu c).intr_enabled = b) (step : s.schedOp c k op = some t) : t.Right := by
  cases op with
  | enable =>
    obtain rfl := Option.some.inj step
    exact h.irq true
  | scan i =>
    obtain rfl := Option.some.inj step
    unfold State.scan
    split
    · rename_i p found
      refine h.pick (matched (.proc p) ?_)
      rw [State.heir, off, now]
      exact Option.mem_map_of_mem _ found
    · exact h.same (fun _ => ⟨rfl, rfl, rfl⟩) rfl
  | wakeupAcquired chan =>
    obtain rfl := Option.some.inj step
    exact h.same (fun _ => ⟨rfl, rfl, rfl⟩) rfl
  | _ => cases step

/-- A statement of a process. -/
theorem State.Right.procOp (h : s.Right) (inv : Inv s) (on : (s.cpu c).proc = some p) (now : s.code (s.me c) = op :: k)
    (matched : ∀ T ∈ s.heir c, ∀ b ∈ s.before T, (s.cpu c).intr_enabled = b) (step : s.procOp c p k op = some t) : t.Right := by
  have leaves : op.switches = true → ∀ procs, ((s.go c k).leave c procs).Right := by
    intro switches procs
    refine h.leave (matched (.sched c) ?_)
    rw [State.heir, on, now]
    exact if_pos switches
  cases op with
  | yield | sleep _ | die =>
    obtain rfl := Option.some.inj step
    exact leaves rfl _
  | publish new th => exact h.publish (k := k) inv step
  | eret =>
    obtain rfl := Option.some.inj step
    exact h.irq (k := []) true
  | _ =>
    replace step : s.tableOp c p k _ = some t := step
    obtain ⟨⟨procs, k'⟩, -, rfl⟩ := Option.map_eq_some_iff.1 step
    exact h.same (fun _ => ⟨rfl, rfl, rfl⟩) rfl

/-- **One statement.** -/
theorem State.Right.executes (h : s.Right) (inv : Inv s) (now : s.code (s.me c) = op :: k)
    (matched : ∀ T ∈ s.heir c, ∀ b ∈ s.before T, (s.cpu c).intr_enabled = b) (step : s.op c k op = some t) : t.Right := by
  cases op with
  | pushcli =>
    obtain rfl := Option.some.inj step
    exact h.pushcli inv
  | popcli =>
    obtain rfl := Option.some.inj step
    exact h.popcli
  | take l =>
    replace step : s.take c k l = some t := step
    unfold State.take at step
    split at step
    · obtain rfl := Option.some.inj step
      exact h.same (fun _ => ⟨rfl, rfl, rfl⟩) rfl
    · split at step
      · obtain rfl := Option.some.inj step
        exact h
      · cases step
  | drop l =>
    obtain rfl := Option.some.inj step
    unfold State.drop
    split
    · exact h.same (fun _ => ⟨rfl, rfl, rfl⟩) rfl
    · exact h
  | panic msg =>
    obtain rfl := Option.some.inj step
    exact h
  | iret =>
    obtain rfl := Option.some.inj step
    exact h.irq true
  | _ =>
    replace step : s.threadOp c k _ = some t := step
    unfold State.threadOp at step
    split at step
    · exact h.schedOp ‹_› now matched step
    · exact h.procOp inv ‹_› now matched step

/-- **One step.** -/
theorem State.Right.keeps (h : s.Right) (inv : Inv s) {l : Label C} (matched : Matched s l) (step : s.step l = some t) : t.Right := by
  unfold State.step at step
  split at step
  · cases step
  cases l with
  | op c =>
    dsimp only at step
    split at step
    · exact h.executes inv ‹_› matched step
    · cases step
  | work c w =>
    dsimp only at step
    split at step
    · obtain rfl := Option.some.inj step
      exact h.same (fun _ => ⟨rfl, rfl, rfl⟩) rfl
    · cases step
  | poll c done =>
    dsimp only at step
    split at step
    · obtain rfl := Option.some.inj step
      exact h.same (fun _ => ⟨rfl, rfl, rfl⟩) rfl
    · cases step
  | unlink c got =>
    dsimp only at step
    split at step
    · obtain rfl := Option.some.inj step
      exact h.same (fun _ => ⟨rfl, rfl, rfl⟩) rfl
    · cases step
  | call c call =>
    dsimp only at step
    split at step
    · split at step
      · cases step
      · obtain rfl := Option.some.inj step
        exact h.same (fun _ => ⟨rfl, rfl, rfl⟩) rfl
    · cases step
  | svc c =>
    dsimp only at step
    split at step
    · rename_i p on
      split at step
      · obtain rfl := Option.some.inj step
        have after : State.Right { (s.go c (s.code (s.me c))).setCpu c { s.cpu c with irq := false } with
            user := Function.update s.user p false } := h.irq false
        rw [State.go_self] at after
        exact after
      · cases step
    · cases step
  | irq c w which =>
    replace step : s.interrupt c w which = some t := step
    unfold State.interrupt at step
    split at step
    case isFalse => cases step
    case isTrue on =>
    split at step
    · obtain rfl := Option.some.inj step
      exact h.irq false
    · obtain rfl := Option.some.inj step
      exact h.irq false
    · cases step

/-- The invariant of all runs that are calm and matched. -/
theorem matched_run (run : (machine C).Via (fun s l => Calm s l ∧ Matched s l) s) : Inv s ∧ s.Right := by
  apply run.invariant
  · rintro s rfl
    exact ⟨.boot, fun c deep => absurd rfl deep⟩
  · rintro s l t ⟨inv, right⟩ ⟨calm, matched⟩ step
    exact ⟨inv.step calm step, right.keeps inv matched step⟩

/-- **The mask across a `cswitch`.** In a calm run in which each thread that is switched to has found the mask
that the CPU has saved, the outermost `release` of a thread leaves the mask that its outermost `acquire` has
found, and as long as a CPU holds a lock it takes no interrupt. -/
theorem mask_restored (run : (machine C).Via (fun s l => Calm s l ∧ Matched s l) s) (c : C) :
    (∀ k b t, s.code (s.me c) = .popcli :: k → (s.cpu c).cli_depth = 1 → s.before (s.me c) = some b →
      (machine C).step s (.op c) = some t → (t.cpu c).irq = b) ∧
    ((s.cpu c).cli_depth ≠ 0 → (s.cpu c).irq = false) := by
  obtain ⟨inv, right⟩ := matched_run run
  refine ⟨fun k b t now last before step => ?_, inv.masked c⟩
  have deep : (s.cpu c).cli_depth ≠ 0 := by omega
  have saved := right c deep b before
  have off := inv.masked c deep
  change s.step (.op c) = some t at step
  unfold State.step at step
  split at step
  · cases step
  · dsimp only at step
    rw [now] at step
    obtain rfl := Option.some.inj step
    unfold State.popcli
    rw [if_neg deep]
    change (Function.update s.cpu c (s.cpu c).popcli c).irq = b
    rw [Function.update_self, Cpu.popcli, if_pos last]
    change ((s.cpu c).irq || (s.cpu c).intr_enabled) = b
    rw [off, Bool.false_or, saved]

end Masks

section Disk

/-- The first process waits for the disk in `fs_init`, with interrupts enabled; one comes while nobody runs,
and the process goes on to where it gives back `proctable.lk`. -/
def diskWait : List (Label Unit) :=
  ops 6 ++ [.call () (.virtio_blk_op 7)] ++ ops 2 ++ [.poll () false] ++ ops 9 ++
    [.irq () ⟨[.acquire .disk, .acquire .proctable, .wakeup 7, .release .proctable, .release .disk], by decide⟩ .device] ++ ops 15

/-- It takes interrupts again. -/
theorem disk_wait_restored : ∃ s t : State Unit, (s.cpu ()).proc = some 0 ∧ s.before (.proc 0) = some true ∧
    (machine Unit).step s (.op ()) = some t ∧ (t.cpu ()).irq = true := by
  have ran : ((machine Unit).runIf (fun s l => Calm s l ∧ Matched s l) (State.boot Unit) diskWait).bind (fun s =>
      ((machine Unit).step s (.op ())).map fun _ => decide ((s.cpu ()).proc = some 0 ∧
        s.code (.proc 0) = .popcli :: (s.code (.proc 0)).tail ∧ (s.cpu ()).cli_depth = 1 ∧ s.before (.proc 0) = some true)) =
      some true := by decide +kernel
  obtain ⟨s, run, rest⟩ := Option.bind_eq_some_iff.1 ran
  obtain ⟨t, step, shown⟩ := Option.map_eq_some_iff.1 rest
  obtain ⟨on, now, last, before⟩ := of_decide_eq_true shown
  have via : (machine Unit).Via (fun s l => Calm s l ∧ Matched s l) s := System.Via.runIf (.init rfl) run
  refine ⟨s, t, on, before, step, ?_⟩
  rw [← State.me_proc on] at now before
  exact (mask_restored via ()).1 _ true t now last before step

/-- The first process, whose time is up, yields in `uirq_handler` with interrupts masked. The scheduler takes the
lock again with interrupts enabled and picks it, and `yield` returns with interrupts enabled. -/
theorem yield_enables_interrupts : ∃ s t : State Unit, (machine Unit).Reach s ∧ (s.cpu ()).proc = some 0 ∧
    (s.code (.proc 0)).head? = some .popcli ∧ (s.cpu ()).cli_depth = 1 ∧ s.before (.proc 0) = some false ∧
    (machine Unit).step s (.op ()) = some t ∧ (t.cpu ()).irq = true := by
  have ran : ((machine Unit).run (State.boot Unit) (ops 6 ++ [.call () .trapret, .op (), .irq () noWork .timer] ++ ops 12)).bind (fun s =>
      ((machine Unit).step s (.op ())).map fun t => decide ((s.cpu ()).proc = some 0 ∧
        (s.code (.proc 0)).head? = some .popcli ∧ (s.cpu ()).cli_depth = 1 ∧ s.before (.proc 0) = some false ∧ (t.cpu ()).irq = true)) =
      some true := by decide +kernel
  obtain ⟨s, run, rest⟩ := Option.bind_eq_some_iff.1 ran
  obtain ⟨t, step, shown⟩ := Option.map_eq_some_iff.1 rest
  obtain ⟨on, now, last, before, irq⟩ := of_decide_eq_true shown
  exact ⟨s, t, System.Via.run (.init rfl) run, on, now, last, before, step, irq⟩

end Disk

end Aarch64Os.Kernel.Cpus
