import Aarch64Os.Kernel.Switching

/-!
# Who waits for a CPU is picked (`kernel/proc.c`)

The loop of `schedule` goes over the slots in order and starts again behind the last one. So a process
that is runnable is picked by one CPU or another before any of them has picked all the other slots once.
-/

namespace Aarch64Os.Kernel.Cpus
set_option autoImplicit false
open Base Tasks

/-- Where the loop of `schedule` looks next. -/
def Op.scans : Op → Option Nat
  | .scan i => some i
  | _ => none

/-- The slot that a scheduler looks at next. -/
def slot (code : List Op) : Option Nat := code.findSome? Op.scans

/-- What keeps the state of a process that is on a CPU or waits for one. -/
def Firm (procs procs' : Procs) : Prop :=
  ∀ q, (procs q).state = .RUNNING ∨ (procs q).state = .RUNNABLE → (procs' q).state = (procs q).state

section Slots
variable {op : Op} {ops k : List Op}

theorem slot_cons (plain : op.scans = none) : slot (op :: k) = slot k := by
  rw [slot, List.findSome?_cons, plain]
  rfl

theorem slot_append (plain : slot ops = none) : slot (ops ++ k) = slot k := by
  rw [slot, List.findSome?_append, show ops.findSome? Op.scans = none from plain, Option.none_or]
  rfl

theorem slot_work (w : Work) : slot w.ops = none := by
  rw [slot, List.findSome?_eq_none_iff]
  intro op mem
  obtain ⟨work, -, there⟩ := List.mem_flatMap.1 mem
  cases work with
  | acquire l =>
    rcases List.mem_cons.1 there with rfl | there
    · rfl
    · rw [List.mem_singleton.1 there]
      rfl
  | release l =>
    rcases List.mem_cons.1 there with rfl | there
    · rfl
    · rw [List.mem_singleton.1 there]
      rfl
  | wakeup a =>
    rw [List.mem_singleton.1 there]
    rfl

end Slots

section Tables
variable {procs procs' : Procs} {p : ProcId} {k k' : List Op} {op : Op}

theorem Firm.rfl : Firm procs procs := fun _ _ => Eq.refl _

/-- A write to a slot that leaves its state. -/
theorem Firm.set (f : Proc → Proc) (same : ∀ q, (f q).state = q.state) (p : ProcId) : Firm procs (procs.set p f) := by
  intro q _
  rcases eq_or_ne q p with rfl | ne
  · rw [Procs.set_self]
    exact same _
  · rw [Procs.set_ne _ _ ne]

/-- A write to a slot that nobody runs or waits with. -/
theorem Firm.out (f : Proc → Proc) (out : ¬((procs p).state = .RUNNING ∨ (procs p).state = .RUNNABLE)) : Firm procs (procs.set p f) := by
  intro q awake
  have ne : q ≠ p := by
    rintro rfl
    exact out awake
  rw [Procs.set_ne _ _ ne]

theorem Firm.wakeupAcquired (chan : Option Chan) : Firm procs (procs.wakeupAcquired chan) := by
  intro q awake
  rcases procs.wakeupAcquired_cases chan q with same | ⟨asleep, -⟩
  · rw [same]
  · rw [asleep] at awake
    rcases awake with eq | eq
    · cases eq
    · cases eq

/-- The statements of processes that touch the table. -/
theorem table_firm (ends : table procs p k op = some (procs', k')) : Firm procs procs' := by
  cases op with
  | chanNull =>
    obtain ⟨rfl, rfl⟩ := Prod.mk.inj (Option.some.inj ends)
    exact .set (fun q => { q with chan := none }) (fun _ => Eq.refl _) p
  | sigcheck =>
    replace ends := Option.some.inj ends
    split at ends
    · obtain ⟨rfl, rfl⟩ := Prod.mk.inj ends
      exact .set (fun q => { q with sig := 0 }) (fun _ => Eq.refl _) p
    · obtain ⟨rfl, rfl⟩ := Prod.mk.inj ends
      exact .rfl
  | exiting ret =>
    replace ends := Option.some.inj ends
    split at ends
    · obtain ⟨rfl, rfl⟩ := Prod.mk.inj ends
      exact .rfl
    · obtain ⟨rfl, rfl⟩ := Prod.mk.inj ends
      exact .set (fun q => { q with ret }) (fun _ => Eq.refl _) p
  | look w =>
    replace ends := Option.some.inj ends
    split at ends
    · rename_i z found
      obtain ⟨rfl, rfl⟩ := Prod.mk.inj ends
      have zombie : (procs z).state = .ZOMBIE := by
        have both := List.find?_some found
        simp only [Bool.decide_and, Bool.and_eq_true, decide_eq_true_eq] at both
        exact both.2
      exact .out _ (by rw [zombie]; decide)
    · obtain ⟨rfl, rfl⟩ := Prod.mk.inj ends
      exact .rfl
  | wakeupAcquired chan =>
    obtain ⟨rfl, rfl⟩ := Prod.mk.inj (Option.some.inj ends)
    exact .wakeupAcquired _
  | setSig target sig =>
    obtain ⟨rfl, rfl⟩ := Prod.mk.inj (Option.some.inj ends)
    exact .set (fun q => { q with sig }) (fun _ => Eq.refl _) target
  | rouse target =>
    obtain ⟨rfl, rfl⟩ := Prod.mk.inj (Option.some.inj ends)
    split
    · rename_i asleep
      exact .out _ (by rw [asleep]; decide)
    · exact .rfl
  | claim =>
    obtain ⟨rfl, rfl⟩ := Prod.mk.inj (Option.some.inj ends)
    cases found : procs.claim with
    | none => exact .rfl
    | some r =>
      obtain ⟨unused, same⟩ := Procs.claim_some (show procs.claim = some (r.1, r.2) from found)
      show Firm procs r.2
      rw [same]
      exact .out _ (by rw [unused]; decide)
  | fill new pid kstack pgt =>
    obtain ⟨created, eq⟩ := Option.ite_none_right_eq_some.1 ends
    obtain ⟨rfl, rfl⟩ := Prod.mk.inj (Option.some.inj eq)
    obtain ⟨g, same, filled, -⟩ := procs.fill_eq new pid kstack pgt
    rw [filled]
    exact .set g (fun q => (same q).2) new
  | fail new =>
    obtain ⟨created, eq⟩ := Option.ite_none_right_eq_some.1 ends
    obtain ⟨rfl, rfl⟩ := Prod.mk.inj (Option.some.inj eq)
    exact .out _ (by rw [created]; decide)
  | pget | tick =>
    obtain ⟨rfl, rfl⟩ := Prod.mk.inj (Option.some.inj ends)
    exact .rfl
  | pushcli | popcli | take | drop | enable | scan | yield | sleep | die | works | poll | publish | unlink | eret | iret | panic =>
    cases ends

end Tables

section Steps
variable {C : Type} [DecidableEq C] {s t : State C} {c d : C} {p q : ProcId} {op : Op} {k : List Op} {l : Label C}

/-- The process that a step picks, and the CPU that picks it. -/
def State.picks (s : State C) : Label C → Option (C × ProcId)
  | .op c =>
    match (s.cpu c).proc, s.code (.sched c) with
    | none, .scan i :: _ => (next s.procs i).map fun q => (c, q)
    | _, _ => none
  | _ => none

/-- A step after which the same processes are on CPUs, and the schedulers are where they were. -/
structure Quiet (s t : State C) : Prop where
  proc : ∀ d, (t.cpu d).proc = (s.cpu d).proc
  firm : Firm s.procs t.procs
  slots : ∀ d, slot (t.code (.sched d)) = slot (s.code (.sched d))

/-- A process gives up its CPU. -/
structure Leaves (s t : State C) (c : C) (p : ProcId) : Prop where
  on : (s.cpu c).proc = some p
  proc : ∀ d, (t.cpu d).proc = if d = c then none else (s.cpu d).proc
  firm : ∀ q ≠ p, (s.procs q).state = .RUNNING ∨ (s.procs q).state = .RUNNABLE → (t.procs q).state = (s.procs q).state
  slots : ∀ d, slot (t.code (.sched d)) = slot (s.code (.sched d))

/-- What a step does to the CPUs. -/
inductive Effect (s t : State C) : Label C → Prop
  | quiet {l : Label C} (h : Quiet s t) (none : s.picks l = none) : Effect s t l
  | leaves {l : Label C} {c : C} {p : ProcId} (h : Leaves s t c p) (none : s.picks l = none) : Effect s t l
  | picks {c : C} {q : ProcId} {i : Nat} {k : List Op} (off : (s.cpu c).proc = none) (code : s.code (.sched c) = .scan i :: k)
      (found : next s.procs i = some q) (eq : t = (s.go c (.scan (q + 1) :: k)).pick c q) : Effect s t (.op c)
  | again {c : C} {i : Nat} {k : List Op} (off : (s.cpu c).proc = none) (code : s.code (.sched c) = .scan i :: k)
      (none : next s.procs i = none) (eq : t = s.go c (release .proctable ++ schedule)) : Effect s t (.op c)

/-- The thread of a CPU goes on, where its scheduler is not ahead. -/
theorem go_slot (same : slot k = slot (s.code (s.me c))) (d : C) : slot ((s.go c k).code (.sched d)) = slot (s.code (.sched d)) := by
  show slot (Function.update s.code (s.me c) k (.sched d)) = _
  by_cases here : Thread.sched d = s.me c
  · rw [← here] at same ⊢
    rw [Function.update_self]
    exact same
  · rw [Function.update_of_ne here]

/-- A process is no scheduler. -/
theorem go_proc (on : (s.cpu c).proc = some p) (k : List Op) (d : C) : (s.go c k).code (.sched d) = s.code (.sched d) := by
  show Function.update s.code (s.me c) k (.sched d) = _
  rw [State.me_proc on, Function.update_of_ne]
  nofun

/-- A CPU changes, but not who is on it. -/
theorem setCpu_proc {x : Cpu} (same : x.proc = (s.cpu c).proc) (d : C) : ((s.setCpu c x).cpu d).proc = (s.cpu d).proc := by
  show (Function.update s.cpu c x d).proc = _
  rcases eq_or_ne d c with rfl | ne
  · rw [Function.update_self]
    exact same
  · rw [Function.update_of_ne ne]

/-- A statement of a scheduler. -/
theorem schedOp_effect (off : (s.cpu c).proc = none) (here : s.code (s.me c) = op :: k) (step : s.schedOp c k op = some t) : Effect s t (.op c) := by
  have me : s.me c = .sched c := State.me_sched off
  rw [me] at here
  cases op with
  | enable =>
    obtain rfl := Option.some.inj step
    have none : s.picks (.op c) = none := by simp only [State.picks, off, here]
    refine .quiet ⟨setCpu_proc (s := s.go c k) rfl, .rfl, go_slot ?_⟩ none
    rw [me, here]
    exact (slot_cons rfl).symm
  | scan i =>
    obtain rfl := Option.some.inj step
    unfold State.scan
    split
    · rename_i q found
      exact .picks off here found rfl
    · rename_i none
      exact .again off here none rfl
  | wakeupAcquired chan =>
    obtain rfl := Option.some.inj step
    have none : s.picks (.op c) = none := by simp only [State.picks, off, here]
    refine .quiet ⟨fun _ => rfl, .wakeupAcquired _, go_slot ?_⟩ none
    rw [me, here]
    exact (slot_cons rfl).symm
  | _ => cases step

/-- A statement of a process. -/
theorem procOp_effect (on : (s.cpu c).proc = some p) (step : s.procOp c p k op = some t) : Effect s t (.op c) := by
  have none : s.picks (.op c) = none := by simp only [State.picks, on]
  have code := go_proc on k
  have left : ∀ procs d, (((s.go c k).leave c procs).cpu d).proc = if d = c then Option.none else (s.cpu d).proc := by
    intro procs d
    show (Function.update s.cpu c { s.cpu c with proc := Option.none } d).proc = _
    rcases eq_or_ne d c with rfl | ne
    · rw [Function.update_self, if_pos rfl]
    · rw [Function.update_of_ne ne, if_neg ne]
  cases op with
  | yield =>
    obtain rfl := Option.some.inj step
    refine .leaves ⟨on, left _, fun q ne _ => ?_, fun d => congrArg slot (code d)⟩ none
    exact congrArg Proc.state (Procs.set_ne s.procs (fun _ => _) ne)
  | sleep chan =>
    obtain rfl := Option.some.inj step
    refine .leaves ⟨on, left _, fun q ne _ => ?_, fun d => congrArg slot (code d)⟩ none
    exact congrArg Proc.state (Procs.set_ne s.procs (fun _ => _) ne)
  | die =>
    obtain rfl := Option.some.inj step
    refine .leaves ⟨on, left _, fun q ne awake => ?_, fun d => congrArg slot (code d)⟩ none
    show (s.procs.exitproc p q).state = _
    rw [Procs.exitproc_ne _ ne]
    split
    · rename_i asleep
      rw [asleep.1] at awake
      rcases awake with eq | eq
      · cases eq
      · cases eq
    · rfl
  | publish new th =>
    obtain ⟨created, eq⟩ := Option.ite_none_right_eq_some.1 step
    obtain rfl := Option.some.inj eq
    refine .quiet ⟨fun _ => rfl, .out _ (by rw [created]; decide), fun d => ?_⟩ none
    show slot (Function.update (s.go c k).code (.proc new) (release .proctable) (.sched d)) = _
    rw [Function.update_of_ne (by nofun), code d]
  | eret =>
    obtain rfl := Option.some.inj step
    exact .quiet ⟨setCpu_proc (s := s.go c []) rfl, .rfl, fun d => congrArg slot (go_proc on [] d)⟩ none
  | _ =>
    replace step : s.tableOp c p k _ = some t := step
    obtain ⟨⟨procs, k'⟩, ends, rfl⟩ := Option.map_eq_some_iff.1 step
    exact .quiet ⟨fun _ => rfl, table_firm ends, fun d => congrArg slot (go_proc on k' d)⟩ none

omit [DecidableEq C] in
/-- A statement that is not of the loop picks nobody. -/
theorem picks_none (here : s.code (s.me c) = op :: k) (plain : op.scans = none) : s.picks (.op c) = none := by
  cases proc : (s.cpu c).proc with
  | some p => simp only [State.picks, proc]
  | none =>
    rw [State.me_sched proc] at here
    cases op with
    | scan i => cases plain
    | _ => simp only [State.picks, proc, here]

/-- **What one statement does.** -/
theorem op_effect (here : s.code (s.me c) = op :: k) (step : s.op c k op = some t) : Effect s t (.op c) := by
  have rest : op.scans = none → slot k = slot (s.code (s.me c)) := by
    intro plain
    rw [here, slot_cons plain]
  have thread : s.threadOp c k op = some t → Effect s t (.op c) := by
    intro step
    unfold State.threadOp at step
    split at step
    · rename_i off
      exact schedOp_effect off here step
    · rename_i p on
      exact procOp_effect on step
  cases op with
  | pushcli =>
    obtain rfl := Option.some.inj step
    have same : (s.cpu c).pushcli.proc = (s.cpu c).proc := (s.cpu c).pushcli_spec.1
    exact .quiet ⟨setCpu_proc (s := s.go c k) same, .rfl, go_slot (rest rfl)⟩ (picks_none here rfl)
  | popcli =>
    obtain rfl := Option.some.inj step
    unfold State.popcli
    split
    · exact .quiet ⟨fun _ => rfl, .rfl, fun _ => rfl⟩ (picks_none here rfl)
    · have same : (s.cpu c).popcli.proc = (s.cpu c).proc := (s.cpu c).popcli_spec.1
      exact .quiet ⟨setCpu_proc (s := s.go c k) same, .rfl, go_slot (rest rfl)⟩ (picks_none here rfl)
  | take l =>
    change s.take c k l = some t at step
    unfold State.take at step
    split at step
    · obtain rfl := Option.some.inj step
      exact .quiet ⟨fun _ => rfl, .rfl, go_slot (rest rfl)⟩ (picks_none here rfl)
    · split at step
      · obtain rfl := Option.some.inj step
        exact .quiet ⟨fun _ => rfl, .rfl, fun _ => rfl⟩ (picks_none here rfl)
      · cases step
  | drop l =>
    obtain rfl := Option.some.inj step
    unfold State.drop
    split
    · exact .quiet ⟨fun _ => rfl, .rfl, go_slot (rest rfl)⟩ (picks_none here rfl)
    · exact .quiet ⟨fun _ => rfl, .rfl, fun _ => rfl⟩ (picks_none here rfl)
  | iret =>
    obtain rfl := Option.some.inj step
    exact .quiet ⟨setCpu_proc (s := s.go c k) rfl, .rfl, go_slot (rest rfl)⟩ (picks_none here rfl)
  | panic msg =>
    obtain rfl := Option.some.inj step
    exact .quiet ⟨fun _ => rfl, .rfl, fun _ => rfl⟩ (picks_none here rfl)
  | _ => exact thread step

/-- **What a step does.** -/
theorem step_effect (step : s.step l = some t) : Effect s t l := by
  obtain ⟨-, step⟩ := Option.ite_none_left_eq_some.1 step
  cases l with
  | op c =>
    cases here : s.code (s.me c) with
    | nil =>
      simp only [here] at step
      cases step
    | cons op k =>
      simp only [here] at step
      exact op_effect here step
  | work c w =>
    simp only at step
    split at step
    · rename_i k here
      obtain rfl := Option.some.inj step
      have same : slot (w.ops ++ k) = slot (s.code (s.me c)) := by
        rw [here, slot_append (slot_work w), slot_cons rfl]
      exact .quiet ⟨fun _ => rfl, .rfl, go_slot same⟩ rfl
    · cases step
  | poll c done =>
    simp only at step
    split at step
    · rename_i buf k here
      obtain rfl := Option.some.inj step
      have same : slot (if done then k else sleep (.addr buf) .disk ++ .poll buf :: k) = slot (s.code (s.me c)) := by
        rw [here, slot_cons rfl]
        split
        · rfl
        · rw [slot_append rfl, slot_cons rfl]
      exact .quiet ⟨fun _ => rfl, .rfl, go_slot same⟩ rfl
    · cases step
  | unlink c got =>
    simp only at step
    split at step
    · rename_i k here
      obtain rfl := Option.some.inj step
      have same : slot (if got then release .kallocator ++ k else printk.ops ++ k) = slot (s.code (s.me c)) := by
        rw [here, slot_cons rfl]
        split
        · exact slot_append rfl
        · exact slot_append (slot_work printk)
      exact .quiet ⟨fun _ => rfl, .rfl, go_slot same⟩ rfl
    · cases step
  | call c call =>
    simp only at step
    split at step
    · rename_i p on _
      obtain ⟨-, eq⟩ := Option.ite_none_left_eq_some.1 step
      obtain rfl := Option.some.inj eq
      exact .quiet ⟨fun _ => rfl, .rfl, fun d => congrArg slot (go_proc on _ d)⟩ rfl
    · cases step
  | svc c =>
    simp only at step
    split at step
    · obtain ⟨-, eq⟩ := Option.ite_none_right_eq_some.1 step
      obtain rfl := Option.some.inj eq
      exact .quiet ⟨setCpu_proc rfl, .rfl, fun _ => rfl⟩ rfl
    · cases step
  | irq c w which =>
    replace step : s.interrupt c w which = some t := step
    obtain ⟨-, step⟩ := Option.ite_none_right_eq_some.1 step
    split at step
    · obtain rfl := Option.some.inj step
      have same : slot (w.ops ++ .iret :: s.code (s.me c)) = slot (s.code (s.me c)) := by
        rw [slot_append (slot_work w), slot_cons rfl]
      exact .quiet ⟨setCpu_proc (s := s.go c _) rfl, .rfl, go_slot same⟩ rfl
    · rename_i p user here
      obtain rfl := Option.some.inj step
      obtain ⟨on, -⟩ := Option.filter_eq_some_iff.1 user
      exact .quiet ⟨setCpu_proc (s := s.go c _) rfl, .rfl, fun d => congrArg slot (go_proc on _ d)⟩ rfl
    · cases step

/-- Nobody runs on two CPUs, and who is on one is running. -/
structure OnCpus (s : State C) : Prop where
  running : ∀ c p, (s.cpu c).proc = some p → (s.procs p).state = .RUNNING
  alone : ∀ c d p, (s.cpu c).proc = some p → (s.cpu d).proc = some p → c = d

omit [DecidableEq C] in
/-- Who is picked was waiting. -/
theorem next_runnable {i : Nat} (found : Tasks.next s.procs i = some q) : i ≤ q ∧ (s.procs q).state = .RUNNABLE := by
  have both := List.find?_some found
  simpa only [Bool.decide_and, Bool.and_eq_true, decide_eq_true_eq] using both

omit [DecidableEq C] in
/-- Whoever comes first is picked. -/
theorem next_first {i : Nat} (found : Tasks.next s.procs i = some q) (p : ProcId) (lt : p < q) : ¬(i ≤ p ∧ (s.procs p).state = .RUNNABLE) := by
  obtain ⟨-, before, behind, split, none⟩ := List.find?_eq_some_iff_append.1 found
  have sorted := List.pairwise_lt_finRange NPROC
  rw [split] at sorted
  have mem : p ∈ before ++ q :: behind := split ▸ List.mem_finRange p
  rcases List.mem_append.1 mem with early | late
  · intro both
    have out := none p early
    simp [both.1, both.2] at out
  · rcases List.mem_cons.1 late with rfl | later
    · exact absurd lt (lt_irrefl _)
    · have above := (List.pairwise_cons.1 (List.pairwise_append.1 sorted).2.1).1 p later
      exact absurd lt above.not_gt

theorem OnCpus.step (h : OnCpus s) (step : s.step l = some t) : OnCpus t := by
  cases step_effect step with
  | quiet quiet _ =>
    refine ⟨?_, ?_⟩
    · intro c p on
      rw [quiet.proc] at on
      have running := h.running c p on
      rw [quiet.firm p (.inl running), running]
    · intro c d p on on'
      rw [quiet.proc] at on on'
      exact h.alone c d p on on'
  | @leaves _ c p leaves _ =>
    have before : ∀ d q, (t.cpu d).proc = some q → d ≠ c ∧ (s.cpu d).proc = some q := by
      intro d q on
      rw [leaves.proc] at on
      exact Option.ite_none_left_eq_some.1 on
    refine ⟨?_, ?_⟩
    · intro d q on
      obtain ⟨ne, on⟩ := before d q on
      have other : q ≠ p := by
        rintro rfl
        exact ne (h.alone d c q on leaves.on)
      have running := h.running d q on
      rw [leaves.firm q other (.inl running), running]
    · intro d d' q on on'
      exact h.alone d d' q (before d q on).2 (before d' q on').2
  | @picks c q i k off _ found eq =>
    subst eq
    obtain ⟨-, waited⟩ := next_runnable found
    have cpus : ∀ d r, (((s.go c (.scan (q + 1) :: k)).pick c q).cpu d).proc = some r → d = c ∧ r = q ∨ d ≠ c ∧ (s.cpu d).proc = some r := by
      intro d r on
      rcases eq_or_ne d c with rfl | ne
      · change (Function.update s.cpu d { s.cpu d with proc := some q } d).proc = some r at on
        rw [Function.update_self] at on
        exact .inl ⟨rfl, (Option.some.inj on).symm⟩
      · change (Function.update s.cpu c { s.cpu c with proc := some q } d).proc = some r at on
        rw [Function.update_of_ne ne] at on
        exact .inr ⟨ne, on⟩
    -- nobody is on a CPU who waits for one
    have idle : ∀ d, (s.cpu d).proc ≠ some q := by
      intro d on
      have running := h.running d q on
      rw [waited] at running
      cases running
    refine ⟨?_, ?_⟩
    · intro d r on
      show (s.procs.set q (fun q => { q with state := .RUNNING }) r).state = .RUNNING
      rcases eq_or_ne r q with rfl | other
      · rw [Procs.set_self]
      · rw [Procs.set_ne _ _ other]
        rcases cpus d r on with ⟨-, same⟩ | ⟨-, on⟩
        · exact absurd same other
        · exact h.running d r on
    · intro d d' r on on'
      rcases cpus d r on with ⟨here, picked⟩ | ⟨-, was⟩
      · rcases cpus d' r on' with ⟨here', -⟩ | ⟨-, was'⟩
        · rw [here, here']
        · exact absurd (picked ▸ was') (idle d')
      · rcases cpus d' r on' with ⟨-, picked⟩ | ⟨-, was'⟩
        · exact absurd (picked ▸ was) (idle d)
        · exact h.alone d d' r was was'
  | again off _ _ eq =>
    subst eq
    exact ⟨h.running, h.alone⟩

theorem OnCpus.reached (run : (machine C).Reach s) : OnCpus s := by
  apply System.Via.invariant (I := OnCpus) _ _ run
  · rintro u rfl
    refine ⟨?_, ?_⟩
    · intro c p on
      cases on
    · intro c d p on
      cases on
  · intro u a v h _ step
    exact h.step step

/-- How many others the loop may pick from slot `i` on before it comes to `p`. -/
def ahead (p : ProcId) (i : Nat) : Nat := if i ≤ p then p - i else NPROC - i + p

/-- The same for the scheduler of a CPU. -/
def State.ahead (s : State C) (c : C) (p : ProcId) : Nat := ((slot (s.code (.sched c))).map (Cpus.ahead p)).getD 0

omit [DecidableEq C] in
theorem ahead_lt (s : State C) (c : C) (p : ProcId) : s.ahead c p < NPROC := by
  unfold State.ahead
  cases slot (s.code (.sched c)) with
  | none => exact Nat.lt_of_le_of_lt (Nat.zero_le _) p.isLt
  | some i =>
    have lt := p.isLt
    show Cpus.ahead p i < NPROC
    unfold Cpus.ahead
    split
    · omega
    · omega

/-- Nobody is picked, and no scheduler has moved. -/
theorem ahead_quiet (slots : ∀ d, slot (t.code (.sched d)) = slot (s.code (.sched d))) (none : s.picks l = none) (c : C) :
    t.ahead c p + ((s.picks l).toList.filter fun e => e.1 = c).length ≤ s.ahead c p := by
  rw [none, State.ahead, State.ahead, slots c]
  exact le_rfl

/-- A step while `p` waits: unless it picks `p`, it goes on waiting, and no scheduler is farther from it; one that picks another is nearer. -/
theorem OnCpus.waits (h : OnCpus s) (step : s.step l = some t) (waiting : (s.procs p).state = .RUNNABLE) (others : ∀ e, s.picks l = some e → e.2 ≠ p) :
    (t.procs p).state = .RUNNABLE ∧ ∀ c, t.ahead c p + ((s.picks l).toList.filter fun e => e.1 = c).length ≤ s.ahead c p := by
  cases step_effect step with
  | quiet quiet none =>
    refine ⟨?_, ahead_quiet quiet.slots none⟩
    rw [quiet.firm p (.inr waiting), waiting]
  | @leaves _ c q leaves none =>
    have other : p ≠ q := by
      rintro rfl
      rw [h.running c p leaves.on] at waiting
      cases waiting
    refine ⟨?_, ahead_quiet leaves.slots none⟩
    rw [leaves.firm p other (.inr waiting), waiting]
  | @picks c q i k off here found eq =>
    subst eq
    have picked : s.picks (.op c) = some (c, q) := by
      simp only [State.picks, off, here, found]
      rfl
    have other : p ≠ q := Ne.symm (others (c, q) picked)
    obtain ⟨from_, -⟩ := next_runnable found
    -- `p` is not between the slot that was next and the one that is picked
    have passes : ¬(i ≤ p ∧ p < q) := by
      intro between
      exact next_first found p between.2 ⟨between.1, waiting⟩
    refine ⟨?_, ?_⟩
    · show (s.procs.set q (fun q => { q with state := .RUNNING }) p).state = .RUNNABLE
      rw [Procs.set_ne _ _ other]
      exact waiting
    · intro d
      have me : s.me c = .sched c := State.me_sched off
      rw [picked]
      by_cases eq : d = c
      · subst eq
        have after : ((s.go d (.scan (q + 1) :: k)).pick d q).ahead d p = Cpus.ahead p (q + 1) := by
          show ((slot (Function.update s.code (s.me d) (.scan (q + 1) :: k) (.sched d))).map (Cpus.ahead p)).getD 0 = _
          rw [me, Function.update_self]
          rfl
        have before : s.ahead d p = Cpus.ahead p i := by
          rw [State.ahead, here]
          rfl
        have one : ((some (d, q)).toList.filter fun e => e.1 = d).length = 1 := by simp
        have lt := q.isLt
        have ne : p.val ≠ q.val := fun same => other (Fin.ext same)
        have passes' : ¬(i ≤ p.val ∧ p.val < q.val) := passes
        rw [after, before, one]
        unfold Cpus.ahead
        split
        · split
          · omega
          · omega
        · split
          · omega
          · omega
      · have same : ((s.go c (.scan (q + 1) :: k)).pick c q).ahead d p = s.ahead d p := by
          show ((slot (Function.update s.code (s.me c) (.scan (q + 1) :: k) (.sched d))).map (Cpus.ahead p)).getD 0 = _
          have ne : Thread.sched d ≠ Thread.sched c := fun same => eq (Thread.sched.inj same)
          rw [me, Function.update_of_ne ne]
          rfl
        have none : ((some (c, q)).toList.filter fun e => e.1 = d).length = 0 := by simp [Ne.symm eq]
        rw [same, none]
        exact le_rfl
  | @again c i k off here none eq =>
    subst eq
    have nobody : s.picks (.op c) = Option.none := by
      simp only [State.picks, off, here, none]
      rfl
    -- the loop has gone past `p`
    have past : ¬i ≤ p := by
      intro le
      have found := List.find?_eq_none.1 none p (List.mem_finRange p)
      simp [le, waiting] at found
    refine ⟨waiting, ?_⟩
    intro d
    have me : s.me c = .sched c := State.me_sched off
    rw [nobody]
    show (s.go c (release .proctable ++ schedule)).ahead d p ≤ s.ahead d p
    by_cases eq : d = c
    · subst eq
      have after : (s.go d (release .proctable ++ schedule)).ahead d p = Cpus.ahead p 0 := by
        show ((slot (Function.update s.code (s.me d) (release .proctable ++ schedule) (.sched d))).map (Cpus.ahead p)).getD 0 = _
        rw [me, Function.update_self]
        rfl
      have before : s.ahead d p = Cpus.ahead p i := by
        rw [State.ahead, here]
        rfl
      rw [after, before]
      unfold Cpus.ahead
      rw [if_pos (Nat.zero_le _), if_neg past]
      omega
    · have ne : Thread.sched d ≠ Thread.sched c := fun same => eq (Thread.sched.inj same)
      show ((slot (Function.update s.code (s.me c) (release .proctable ++ schedule) (.sched d))).map (Cpus.ahead p)).getD 0 ≤ _
      rw [me, Function.update_of_ne ne]
      exact le_rfl

end Steps

end Aarch64Os.Kernel.Cpus
