import Mathlib
import Aarch64Os.Base.Spinlock
import Aarch64Os.Base.Transition
import Aarch64Os.Kernel.Proc

/-!
# Sleeping and waking, statement by statement (`sleep`, `wakeup`)

One process waits for a condition under a lock, any number of others make it true under
the same lock and wake the process, and the CPUs schedule. The lock is `proctable.lk` or
another one. Here the statements of `sleep` are steps of their own, because what matters
is the window between them.
-/

namespace Aarch64Os.Kernel.SleepWake
set_option autoImplicit false
open Base

/-- The lock given to `sleep`: `proctable.lk`, or another one. -/
inductive Lock
  | ptable
  | other
  deriving DecidableEq

/-- Who can own a lock; `sched c` is the scheduler of CPU `c`. -/
inductive Owner (W S : Type)
  | sleeper
  | waker (w : W)
  | sched (c : S)
  deriving DecidableEq

/-- What the waiting process does next. -/
inductive SleeperPc
  /-- take the lock -/
  | top
  /-- look at the condition -/
  | test
  /-- `if(lk != &proctable.lk) acquire(&proctable.lk)` -/
  | call
  /-- `release(lk)` -/
  | both
  /-- `p->chan = chan` -/
  | alone
  /-- `p->state = SLEEPING` -/
  | chanSet
  /-- `cswitch` -/
  | slept
  /-- wait to be picked -/
  | off
  /-- `p->chan = NULL` -/
  | back
  /-- `release(&proctable.lk)` -/
  | cleared
  /-- `if(lk != &proctable.lk) acquire(lk)` -/
  | freed
  deriving DecidableEq

/-- What a process that makes the condition true does next. -/
inductive WakerPc
  /-- take the lock -/
  | idle
  /-- make the condition true -/
  | locked
  /-- `wakeup`: take `proctable.lk`; or `wakeup_acquired` with the lock in hand -/
  | set
  /-- look through the slots -/
  | both
  /-- `release(&proctable.lk)` -/
  | woken
  /-- release the lock -/
  | done
  deriving DecidableEq

/-- A CPU: away from the table or running somebody else, in the scheduler with
`proctable.lk`, or running the waiting process. -/
inductive SchedPc
  | idle
  | hold
  | run
  deriving DecidableEq

/-- The condition, the locks, and where everybody is; `cpu` is where the waiting process runs. -/
structure State (W S : Type) where
  procs : Procs
  cond : Bool
  locks : Lock → Option (Owner W S)
  sleeper : SleeperPc
  cpu : S
  waker : W → WakerPc
  sched : S → SchedPc

/-- A step of the waiting process, which may make the condition false again when it has
found it true, of a waker, or of the scheduler of a CPU: another process comes to it and
writes to its slot, it picks a process, or gives up. -/
inductive Label (W S : Type)
  | sleeper (consume : Bool)
  | waker (w : W)
  | grab (c : S) (q : ProcId) (x : Proc)
  | pick (c : S) (q : ProcId)
  | drop (c : S)

/-- The locks the waiting process holds. -/
def SleeperPc.holds (lk l : Lock) : SleeperPc → Bool
  | .test | .call => l = lk
  | .both => l = lk ∨ l = .ptable
  | .alone | .chanSet | .slept | .back | .cleared => l = .ptable
  | .top | .off | .freed => false

/-- The locks a waker holds. -/
def WakerPc.holds (lk l : Lock) : WakerPc → Bool
  | .locked | .set | .done => l = lk
  | .both | .woken => l = lk ∨ l = .ptable
  | .idle => false

/-- The condition has been set and the slots have not been looked through. -/
def WakerPc.between : WakerPc → Bool
  | .set | .both => true
  | _ => false

section Steps
variable {W S : Type} [DecidableEq W] [DecidableEq S]

/-- `acquire`, for one that goes on with `t`. -/
def State.acquire (s : State W S) (l : Lock) (o : Owner W S) (t : State W S) : Option (State W S) :=
  if s.locks l = none then some { t with locks := Function.update s.locks l (some o) } else none

/-- `release`, for one that goes on with `t`. -/
def State.release (s : State W S) (l : Lock) (t : State W S) : State W S :=
  { t with locks := Function.update s.locks l none }

/-- The waiting process `p`, that waits on `chan` under `lk`. -/
def State.sleep (s : State W S) (p : ProcId) (chan : Chan) (lk : Lock) (consume : Bool) : Option (State W S) :=
  match s.sleeper with
  | .top => s.acquire lk .sleeper { s with sleeper := .test }
  | .test =>
    if s.cond then some (s.release lk { s with cond := !consume, sleeper := .top })
    else some { s with sleeper := .call }
  | .call => if lk ≠ .ptable then s.acquire .ptable .sleeper { s with sleeper := .both } else some { s with sleeper := .alone }
  | .both => some (s.release lk { s with sleeper := .alone })
  | .alone => some { s with procs := s.procs.set p fun q => { q with chan := some chan }, sleeper := .chanSet }
  | .chanSet => some { s with procs := s.procs.set p fun q => { q with state := .SLEEPING }, sleeper := .slept }
  | .slept => some { s with
      locks := Function.update s.locks .ptable (some (.sched s.cpu))
      sched := Function.update s.sched s.cpu .hold
      sleeper := .off }
  | .off => none
  | .back => some { s with procs := s.procs.set p fun q => { q with chan := none }, sleeper := .cleared }
  | .cleared => some (s.release .ptable { s with sleeper := .freed })
  | .freed => if lk ≠ .ptable then s.acquire lk .sleeper { s with sleeper := .test } else some { s with sleeper := .top }

/-- Move waker `w`. -/
def State.goto (s : State W S) (w : W) (pc : WakerPc) : State W S := { s with waker := Function.update s.waker w pc }

/-- Waker `w`. -/
def State.wake (s : State W S) (chan : Chan) (lk : Lock) (w : W) : Option (State W S) :=
  match s.waker w with
  | .idle => s.acquire lk (.waker w) (s.goto w .locked)
  | .locked => some { s.goto w .set with cond := true }
  | .set =>
    if lk ≠ .ptable then s.acquire .ptable (.waker w) (s.goto w .both)
    else some { s.goto w .done with procs := s.procs.wakeupAcquired (some chan) }
  | .both => some { s.goto w .woken with procs := s.procs.wakeupAcquired (some chan) }
  | .woken => some (s.release .ptable (s.goto w .done))
  | .done => some (s.release lk (s.goto w .idle))

/-- The step function. -/
def State.step (p : ProcId) (chan : Chan) (lk : Lock) (s : State W S) (l : Label W S) : Option (State W S) :=
  match l with
  | .sleeper consume => s.sleep p chan lk consume
  | .waker w => s.wake chan lk w
  | .grab c q x =>
    if s.sched c = .idle ∧ q ≠ p then
      s.acquire .ptable (.sched c) { s with procs := s.procs.set q fun _ => x, sched := Function.update s.sched c .hold }
    else none
  | .pick c q =>
    if s.sched c = .hold ∧ (s.procs q).state = .RUNNABLE then
      some (
        let s := { s with procs := s.procs.set q fun x => { x with state := .RUNNING } }
        if q = p then { s with
          locks := Function.update s.locks .ptable (some .sleeper)
          sched := Function.update s.sched c .run
          sleeper := .back
          cpu := c }
        else s.release .ptable { s with sched := Function.update s.sched c .idle })
    else none
  | .drop c =>
    if s.sched c = .hold then some (s.release .ptable { s with sched := Function.update s.sched c .idle }) else none

/-- One waiting process that runs, wakers that have not started, and all locks free. -/
def sleepSystem (W S : Type) [DecidableEq W] [DecidableEq S] (p : ProcId) (chan : Chan) (lk : Lock) :
    System (State W S) (Label W S) where
  init s := s.sleeper = .top ∧ (s.procs p).state = .RUNNING ∧ (∀ l, s.locks l = none) ∧ (∀ w, s.waker w = .idle) ∧
    ∀ c, s.sched c ≠ .hold
  step := State.step p chan lk

end Steps

variable {W S : Type}

/-- The locks somebody holds where he is. -/
def State.Holds (lk : Lock) (s : State W S) : Owner W S → Lock → Prop
  | .sleeper, l => s.sleeper.holds lk l
  | .waker w, l => (s.waker w).holds lk l
  | .sched c, l => s.sched c = .hold ∧ l = .ptable

/-- The process has found the condition false, and nobody has woken it since. -/
def State.Committed (p : ProcId) (s : State W S) : Prop :=
  s.sleeper ∈ [.call, .both, .alone, .chanSet, .slept] ∨ s.sleeper = .off ∧ (s.procs p).state = .SLEEPING

/-- Locks are exclusive; the slot of the process is as its code has left it; and once it has
found the condition false, who makes the condition true has still to look for it. -/
structure Inv (p : ProcId) (chan : Chan) (lk : Lock) (s : State W S) : Prop where
  locks : Exclusive s.locks (s.Holds lk)
  another : s.sleeper = .both → lk ≠ .ptable
  others : ∀ w, s.waker w = .both ∨ s.waker w = .woken → lk ≠ .ptable
  placed : s.sleeper = .off ∨ s.sleeper = .slept ∧ (s.procs p).state = .SLEEPING ∨ (s.procs p).state = .RUNNING
  chan : s.sleeper = .chanSet ∨ s.sleeper = .slept ∨ s.sleeper = .off ∧ (s.procs p).state = .SLEEPING →
    (s.procs p).chan = some chan
  seen : s.Committed p → s.cond = true → ∃ w, (s.waker w).between

section Invariants
variable [DecidableEq W] [DecidableEq S] {p : ProcId} {chan : Chan} {lk : Lock} {s t : State W S}

omit [DecidableEq W] [DecidableEq S] in
theorem State.acquire_some {l : Lock} {o : Owner W S} {u : State W S} (h : s.acquire l o u = some t) :
    s.locks l = none ∧ t = { u with locks := Function.update s.locks l (some o) } := by
  unfold State.acquire at h
  split at h
  · exact ⟨‹_›, (Option.some.inj h).symm⟩
  · simp at h

omit [DecidableEq W] [DecidableEq S] in
/-- The waiting process goes on, with the locks it needs there. -/
theorem Inv.move (h : Inv p chan lk s) {pc : SleeperPc} {procs : Procs} {cond : Bool} {locks : Lock → Option (Owner W S)}
    (excl : Exclusive locks (State.Holds lk { s with sleeper := pc })) (another : pc = .both → lk ≠ .ptable)
    (placed : pc = .slept ∧ (procs p).state = .SLEEPING ∨ (procs p).state = .RUNNING)
    (named : pc = .chanSet ∨ pc = .slept → (procs p).chan = some chan)
    (seen : pc ∈ [.call, .both, .alone, .chanSet, .slept] → cond = s.cond ∧ (s.Committed p ∨ cond = false)) (on : pc ≠ .off) :
    Inv p chan lk { s with procs := procs, cond := cond, locks := locks, sleeper := pc } := by
  refine ⟨excl, another, h.others, .inr placed, ?_, fun committed true => ?_⟩
  · rintro (pc | pc | ⟨off, -⟩)
    · exact named (.inl pc)
    · exact named (.inr pc)
    · exact absurd off on
  · rcases committed with mem | ⟨off, -⟩
    · obtain ⟨rfl, before | no⟩ := seen mem
      · exact h.seen before true
      · simp [no] at true
    · exact absurd off on

omit [DecidableEq W] [DecidableEq S] in
/-- No lock is taken or given back. -/
theorem keep_sleeper (h : Exclusive s.locks (s.Holds lk)) {pc : SleeperPc} (less : ∀ l, pc.holds lk l → s.sleeper.holds lk l) :
    Exclusive s.locks (State.Holds lk { s with sleeper := pc }) := by
  refine h.mono ?_
  rintro (_ | w | c) l holds
  · exact less l holds
  · exact holds
  · exact holds

omit [DecidableEq W] [DecidableEq S] in
/-- Lock `l` is taken. -/
theorem acquire_sleeper (h : Exclusive s.locks (s.Holds lk)) {pc : SleeperPc} {l : Lock} (free : s.locks l = none)
    (more : ∀ x, pc.holds lk x → s.sleeper.holds lk x ∨ x = l) :
    Exclusive (Function.update s.locks l (some .sleeper)) (State.Holds lk { s with sleeper := pc }) := by
  refine h.acquire free ?_
  rintro (_ | w | c) x holds
  · rcases more x holds with before | rfl
    · exact .inl before
    · exact .inr ⟨rfl, rfl⟩
  · exact .inl holds
  · exact .inl holds

omit [DecidableEq W] [DecidableEq S] in
/-- Lock `l` is given back. -/
theorem release_sleeper (h : Exclusive s.locks (s.Holds lk)) {pc : SleeperPc} {l : Lock} (held : s.sleeper.holds lk l)
    (less : ∀ x, pc.holds lk x → s.sleeper.holds lk x ∧ x ≠ l) :
    Exclusive (Function.update s.locks l none) (State.Holds lk { s with sleeper := pc }) := by
  refine h.pass (o := Owner.sleeper) (l := l) held ?_
  rintro (_ | w | c) x holds
  · obtain ⟨before, ne⟩ := less x holds
    exact .inl ⟨before, .inr ne⟩
  · exact .inl ⟨holds, .inl (by simp)⟩
  · exact .inl ⟨holds, .inl (by simp)⟩

omit [DecidableEq W] in
/-- A step of the waiting process. -/
theorem Inv.sleep {consume : Bool} (h : Inv p chan lk s) (step : s.sleep p chan lk consume = some t) : Inv p chan lk t := by
  have placed := h.placed
  unfold State.sleep at step
  split at step
  case h_1 pc =>
    obtain ⟨free, rfl⟩ := State.acquire_some step
    refine h.move (acquire_sleeper h.locks free ?_) (by simp) ?_ (by simp) (by simp) (by simp)
    · simp [SleeperPc.holds]
    · simpa [pc] using placed
  case h_2 pc =>
    split at step
    · obtain rfl := Option.some.inj step
      refine h.move (release_sleeper h.locks ?_ ?_) (by simp) ?_ (by simp) (by simp) (by simp)
      · simp [pc, SleeperPc.holds]
      · simp [SleeperPc.holds]
      · simpa [pc] using placed
    · obtain rfl := Option.some.inj step
      refine h.move (keep_sleeper h.locks ?_) (by simp) ?_ (by simp) ?_ (by simp)
      · simp [pc, SleeperPc.holds]
      · simpa [pc] using placed
      · exact fun _ => ⟨rfl, .inr (by simpa using ‹¬ s.cond = true›)⟩
  case h_3 pc =>
    have committed : s.Committed p := .inl (by simp [pc])
    split at step
    · obtain ⟨free, rfl⟩ := State.acquire_some step
      refine h.move (acquire_sleeper h.locks free ?_) (fun _ => ‹_›) ?_ (by simp) (fun _ => ⟨rfl, .inl committed⟩) (by simp)
      · simp [pc, SleeperPc.holds]
      · simpa [pc] using placed
    · obtain rfl := Option.some.inj step
      have same : lk = .ptable := by simpa using ‹¬ lk ≠ .ptable›
      refine h.move (keep_sleeper h.locks ?_) (by simp) ?_ (by simp) (fun _ => ⟨rfl, .inl committed⟩) (by simp)
      · simp [pc, SleeperPc.holds, same]
      · simpa [pc] using placed
  case h_4 pc =>
    have committed : s.Committed p := .inl (by simp [pc])
    obtain rfl := Option.some.inj step
    refine h.move (release_sleeper h.locks ?_ ?_) (by simp) ?_ (by simp) (fun _ => ⟨rfl, .inl committed⟩) (by simp)
    · simp [pc, SleeperPc.holds]
    · have := h.another pc
      simp only [pc, SleeperPc.holds, decide_eq_true_eq]
      rintro x rfl
      exact ⟨.inr rfl, Ne.symm this⟩
    · simpa [pc] using placed
  case h_5 pc =>
    have committed : s.Committed p := .inl (by simp [pc])
    obtain rfl := Option.some.inj step
    refine h.move (keep_sleeper h.locks ?_) (by simp) ?_ (by simp) (fun _ => ⟨rfl, .inl committed⟩) (by simp)
    · simp [pc, SleeperPc.holds]
    · simpa [pc] using placed
  case h_6 pc =>
    have committed : s.Committed p := .inl (by simp [pc])
    obtain rfl := Option.some.inj step
    refine h.move (keep_sleeper h.locks ?_) (by simp) (by simp) ?_ (fun _ => ⟨rfl, .inl committed⟩) (by simp)
    · simp [pc, SleeperPc.holds]
    · simpa using h.chan (.inl pc)
  case h_7 pc =>
    obtain rfl := Option.some.inj step
    have committed : s.Committed p := .inl (by simp [pc])
    refine ⟨?_, by simp, h.others, .inl rfl, fun _ => h.chan (.inr (.inl pc)), fun _ => h.seen committed⟩
    refine h.locks.pass (o := Owner.sleeper) (l := .ptable) ?_ ?_
    · simp [State.Holds, pc, SleeperPc.holds]
    · rintro (_ | w | c) x holds
      · simp [State.Holds, SleeperPc.holds] at holds
      · exact .inl ⟨holds, .inl (by simp)⟩
      · simp only [State.Holds, Function.update_apply] at holds
        by_cases e : c = s.cpu
        · exact .inr ⟨by rw [e], holds.2⟩
        · rw [if_neg e] at holds
          exact .inl ⟨holds, .inl (by simp)⟩
  case h_8 pc => simp at step
  case h_9 pc =>
    obtain rfl := Option.some.inj step
    refine h.move (keep_sleeper h.locks ?_) (by simp) ?_ (by simp) (by simp) (by simp)
    · simp [pc, SleeperPc.holds]
    · simpa [pc] using placed
  case h_10 pc =>
    obtain rfl := Option.some.inj step
    refine h.move (release_sleeper h.locks ?_ ?_) (by simp) ?_ (by simp) (by simp) (by simp)
    · simp [pc, SleeperPc.holds]
    · simp [SleeperPc.holds]
    · simpa [pc] using placed
  case h_11 pc =>
    split at step
    · obtain ⟨free, rfl⟩ := State.acquire_some step
      refine h.move (acquire_sleeper h.locks free ?_) (by simp) ?_ (by simp) (by simp) (by simp)
      · simp [SleeperPc.holds]
      · simpa [pc] using placed
    · obtain rfl := Option.some.inj step
      refine h.move (keep_sleeper h.locks ?_) (by simp) ?_ (by simp) (by simp) (by simp)
      · simp [SleeperPc.holds]
      · simpa [pc] using placed

omit [DecidableEq S] in
/-- Where a waker goes, and where the others are. -/
theorem State.goto_waker (s : State W S) (w x : W) (pc : WakerPc) :
    (s.goto w pc).waker x = if x = w then pc else s.waker x := Function.update_apply ..

omit [DecidableEq S] in
/-- A waker that takes lock `l`. -/
theorem acquire_waker (h : Exclusive s.locks (s.Holds lk)) {w : W} {pc : WakerPc} {l : Lock} (free : s.locks l = none)
    (more : ∀ x, pc.holds lk x → (s.waker w).holds lk x ∨ x = l) :
    Exclusive (Function.update s.locks l (some (.waker w))) (State.Holds lk (s.goto w pc)) := by
  refine h.acquire free ?_
  rintro (_ | y | c) x holds
  · exact .inl holds
  · simp only [State.Holds, State.goto_waker] at holds
    split at holds
    · subst y
      rcases more x holds with before | rfl
      · exact .inl before
      · exact .inr ⟨rfl, rfl⟩
    · exact .inl holds
  · exact .inl holds

omit [DecidableEq S] in
/-- A waker that gives lock `l` back. -/
theorem release_waker (h : Exclusive s.locks (s.Holds lk)) {w : W} {pc : WakerPc} {l : Lock} (held : (s.waker w).holds lk l)
    (less : ∀ x, pc.holds lk x → (s.waker w).holds lk x ∧ x ≠ l) :
    Exclusive (Function.update s.locks l none) (State.Holds lk (s.goto w pc)) := by
  refine h.pass (o := Owner.waker w) (l := l) held ?_
  rintro (_ | y | c) x holds
  · exact .inl ⟨holds, .inl (by simp)⟩
  · simp only [State.Holds, State.goto_waker] at holds
    split at holds
    · subst y
      obtain ⟨before, ne⟩ := less x holds
      exact .inl ⟨before, .inr ne⟩
    · exact .inl ⟨holds, .inl (by simpa using ‹¬ y = w›)⟩
  · exact .inl ⟨holds, .inl (by simp)⟩

omit [DecidableEq S] in
/-- A waker that keeps its locks. -/
theorem keep_waker (h : Exclusive s.locks (s.Holds lk)) {w : W} {pc : WakerPc}
    (less : ∀ l, pc.holds lk l → (s.waker w).holds lk l) : Exclusive s.locks (State.Holds lk (s.goto w pc)) := by
  refine h.mono ?_
  rintro (_ | y | c) l holds
  · exact holds
  · simp only [State.Holds, State.goto_waker] at holds
    split at holds
    · subst y
      exact less l holds
    · exact holds
  · exact holds

omit [DecidableEq S] in
theorem Inv.others_goto (h : Inv p chan lk s) {w : W} {pc : WakerPc} (two : pc = .both ∨ pc = .woken → lk ≠ .ptable) (x : W)
    (at_x : (s.goto w pc).waker x = .both ∨ (s.goto w pc).waker x = .woken) : lk ≠ .ptable := by
  rw [State.goto_waker] at at_x
  split at at_x
  · exact two at_x
  · exact h.others x at_x

omit [DecidableEq S] in
/-- A waker goes on without looking through the slots. -/
theorem Inv.goto (h : Inv p chan lk s) {w : W} {pc : WakerPc} {locks : Lock → Option (Owner W S)} {cond : Bool}
    (excl : Exclusive locks (State.Holds lk (s.goto w pc))) (two : pc = .both ∨ pc = .woken → lk ≠ .ptable)
    (still : cond = s.cond ∧ ((s.waker w).between → pc.between) ∨ pc.between) :
    Inv p chan lk { s.goto w pc with locks := locks, cond := cond } := by
  refine ⟨excl, h.another, h.others_goto two, h.placed, h.chan, fun committed true => ?_⟩
  rcases still with ⟨rfl, still⟩ | here
  · obtain ⟨x, between⟩ := h.seen committed true
    refine ⟨x, ?_⟩
    change ((s.goto w pc).waker x).between
    rw [State.goto_waker]
    split
    · subst x
      exact still between
    · exact between
  · refine ⟨w, ?_⟩
    change ((s.goto w pc).waker w).between
    rw [State.goto_waker, if_pos rfl]
    exact here

omit [DecidableEq S] in
/-- A waker looks through the slots: a process that has found the condition false is not in
the middle of `sleep`, where it would own a lock of the waker's, so it sleeps and is woken. -/
theorem Inv.scan (h : Inv p chan lk s) {w : W} {pc : WakerPc} (held : (s.waker w).holds lk lk ∧ (s.waker w).holds lk .ptable)
    (less : ∀ l, pc.holds lk l → (s.waker w).holds lk l) (two : pc = .both ∨ pc = .woken → lk ≠ .ptable) :
    Inv p chan lk { s.goto w pc with procs := s.procs.wakeupAcquired (some chan) } := by
  have placed := h.placed
  have alone : ∀ l, s.sleeper.holds lk l → l ≠ lk ∧ l ≠ .ptable := by
    intro l sleeper
    have exclusive : ∀ l, (s.waker w).holds lk l → ¬ s.sleeper.holds lk l := by
      intro l waker sleeper
      have same : Owner.sleeper = Owner.waker w := h.locks.unique (l := l) sleeper waker
      simp at same
    exact ⟨fun e => exclusive lk held.1 (e ▸ sleeper), fun e => exclusive .ptable held.2 (e ▸ sleeper)⟩
  have off : s.sleeper ∉ [.call, .both, .alone, .chanSet, .slept] := by
    intro mem
    have at_lk := alone lk
    have at_ptable := alone .ptable
    simp only [List.mem_cons, List.not_mem_nil, or_false] at mem
    rcases mem with pc | pc | pc | pc | pc <;> simp [pc, SleeperPc.holds] at at_lk at_ptable
  have asleep : s.sleeper = .off → (s.procs.wakeupAcquired (some chan) p).state ≠ .SLEEPING := by
    intro pc sleeping
    rcases s.procs.wakeupAcquired_cases (some chan) p with same | ⟨-, woken⟩
    · rw [same] at sleeping
      have named := h.chan (.inr (.inr ⟨pc, sleeping⟩))
      have : s.procs.wakeupAcquired (some chan) p = { s.procs p with state := .RUNNABLE } := if_pos ⟨sleeping, named⟩
      rw [this] at same
      rw [← same] at sleeping
      simp at sleeping
    · simp [woken] at sleeping
  refine ⟨keep_waker h.locks less, h.another, h.others_goto two, ?_, ?_, ?_⟩
  · rcases placed with pc | ⟨pc, -⟩ | running
    · exact .inl pc
    · exact absurd (by simp [pc]) off
    · refine .inr (.inr ?_)
      rcases s.procs.wakeupAcquired_cases (some chan) p with same | ⟨sleeping, -⟩
      · exact (congrArg Proc.state same).trans running
      · simp [running] at sleeping
  · rintro (pc | pc | ⟨pc, sleeping⟩)
    · exact absurd (by simp [show s.sleeper = .chanSet from pc]) off
    · exact absurd (by simp [show s.sleeper = .slept from pc]) off
    · exact absurd sleeping (asleep pc)
  · rintro (mem | ⟨pc, sleeping⟩) -
    · exact absurd mem off
    · exact absurd sleeping (asleep pc)

omit [DecidableEq S] in
/-- A step of a waker. -/
theorem Inv.wake {w : W} (h : Inv p chan lk s) (step : s.wake chan lk w = some t) : Inv p chan lk t := by
  unfold State.wake at step
  split at step
  case h_1 pc =>
    obtain ⟨free, rfl⟩ := State.acquire_some step
    refine h.goto (acquire_waker h.locks free ?_) (by simp) (.inl ⟨rfl, ?_⟩)
    · simp [WakerPc.holds]
    · simp [pc, WakerPc.between]
  case h_2 pc =>
    obtain rfl := Option.some.inj step
    refine h.goto (keep_waker h.locks ?_) (by simp) (.inr rfl)
    simp [pc, WakerPc.holds]
  case h_3 pc =>
    split at step
    · obtain ⟨free, rfl⟩ := State.acquire_some step
      refine h.goto (acquire_waker h.locks free ?_) (fun _ => ‹_›) (.inr rfl)
      simp [pc, WakerPc.holds]
    · obtain rfl := Option.some.inj step
      have same : lk = .ptable := by simpa using ‹¬ lk ≠ .ptable›
      refine h.scan ?_ ?_ (by simp)
      · simp [pc, WakerPc.holds, same]
      · simp [pc, WakerPc.holds]
  case h_4 pc =>
    obtain rfl := Option.some.inj step
    refine h.scan ?_ ?_ fun _ => h.others w (.inl pc)
    · simp [pc, WakerPc.holds]
    · simp [pc, WakerPc.holds]
  case h_5 pc =>
    obtain rfl := Option.some.inj step
    have ne := h.others w (.inr pc)
    refine h.goto (release_waker h.locks ?_ ?_) (by simp) (.inl ⟨rfl, ?_⟩)
    · simp [pc, WakerPc.holds]
    · simp only [pc, WakerPc.holds, decide_eq_true_eq]
      rintro x rfl
      exact ⟨.inl rfl, ne⟩
    · simp [pc, WakerPc.between]
  case h_6 pc =>
    obtain rfl := Option.some.inj step
    refine h.goto (release_waker h.locks ?_ ?_) (by simp) (.inl ⟨rfl, ?_⟩)
    · simp [pc, WakerPc.holds]
    · simp [WakerPc.holds]
    · simp [pc, WakerPc.between]

omit [DecidableEq W] in
/-- The scheduler of a CPU gives `proctable.lk` back, whatever it has written to other slots. -/
theorem Inv.leave (h : Inv p chan lk s) {c : S} (hold : s.sched c = .hold) {procs : Procs} (same : procs p = s.procs p) :
    Inv p chan lk (s.release .ptable { s with procs := procs, sched := Function.update s.sched c .idle }) := by
  refine ⟨?_, h.another, h.others, ?_, ?_, ?_⟩
  · refine h.locks.pass (o := Owner.sched c) (l := .ptable) ⟨hold, rfl⟩ ?_
    rintro (_ | w | d) x holds
    · exact .inl ⟨holds, .inl (by simp)⟩
    · exact .inl ⟨holds, .inl (by simp)⟩
    · obtain ⟨at_d, rfl⟩ : Function.update s.sched c .idle d = .hold ∧ x = .ptable := holds
      have ne : d ≠ c := fun e => by simp [e] at at_d
      rw [Function.update_of_ne ne] at at_d
      exact .inl ⟨⟨at_d, rfl⟩, .inl (by simpa using ne)⟩
  · have placed := h.placed
    rwa [← same] at placed
  · have named := h.chan
    rwa [← same] at named
  · have seen := h.seen
    rwa [State.Committed, ← same] at seen

/-- Every step keeps the invariant. -/
theorem Inv.step {l : Label W S} (h : Inv p chan lk s) (step : s.step p chan lk l = some t) : Inv p chan lk t := by
  cases l with
  | sleeper consume => exact h.sleep step
  | waker w => exact h.wake step
  | grab c q x =>
    simp only [State.step] at step
    split at step
    · rename_i here
      obtain ⟨free, rfl⟩ := State.acquire_some step
      have same : s.procs.set q (fun _ => x) p = s.procs p := Procs.set_ne _ _ (Ne.symm here.2)
      refine ⟨?_, h.another, h.others, ?_, ?_, ?_⟩
      · refine h.locks.acquire free ?_
        rintro (_ | w | d) y holds
        · exact .inl holds
        · exact .inl holds
        · obtain ⟨at_d, rfl⟩ : Function.update s.sched c .hold d = .hold ∧ y = .ptable := holds
          by_cases e : d = c
          · exact .inr ⟨by rw [e], rfl⟩
          · rw [Function.update_of_ne e] at at_d
            exact .inl ⟨at_d, rfl⟩
      · have placed := h.placed
        rwa [← same] at placed
      · have named := h.chan
        rwa [← same] at named
      · have seen := h.seen
        rwa [State.Committed, ← same] at seen
    · simp at step
  | pick c q =>
    simp only [State.step] at step
    split at step
    · rename_i here
      obtain ⟨hold, runnable⟩ := here
      by_cases e : q = p
      · subst e
        obtain rfl := Option.some.inj step
        simp only [if_true]
        refine ⟨?_, by simp, h.others, .inr (.inr (by simp)), by simp, by simp [State.Committed]⟩
        refine h.locks.pass (o := Owner.sched c) (l := .ptable) ⟨hold, rfl⟩ ?_
        rintro (_ | w | d) x holds
        · have : x = .ptable := by simpa [State.Holds, SleeperPc.holds] using holds
          exact .inr ⟨rfl, this⟩
        · exact .inl ⟨holds, .inl (by simp)⟩
        · obtain ⟨at_d, rfl⟩ : Function.update s.sched c .run d = .hold ∧ x = .ptable := holds
          have ne : d ≠ c := fun e => by simp [e] at at_d
          rw [Function.update_of_ne ne] at at_d
          exact .inl ⟨⟨at_d, rfl⟩, .inl (by simpa using ne)⟩
      · obtain rfl := Option.some.inj step
        rw [if_neg e]
        exact h.leave hold (Procs.set_ne _ _ (Ne.symm e))
    · simp at step
  | drop c =>
    simp only [State.step] at step
    split at step
    · obtain rfl := Option.some.inj step
      exact h.leave ‹_› rfl
    · simp at step

/-- **No wakeup is lost.** Whether `sleep` is given `proctable.lk` or another lock: once the
condition is true and nobody who has set it has still to wake the process, it does not sleep. -/
theorem no_lost_wakeup (h : (sleepSystem W S p chan lk).Reach s) :
    ¬ (s.cond = true ∧ (∀ w, ¬ (s.waker w).between) ∧ (s.procs p).state = .SLEEPING ∧ (s.procs p).chan = some chan) := by
  have inv : Inv p chan lk s := by
    refine h.invariant (I := Inv p chan lk) ?_ fun s l t inv _ step => inv.step step
    rintro s ⟨top, running, -, idle, away⟩
    refine ⟨?_, by simp [top], by simp [idle], .inr (.inr running), by simp [top], by simp [State.Committed, top]⟩
    rintro (_ | w | c) l holds
    · simp [State.Holds, top, SleeperPc.holds] at holds
    · simp [State.Holds, idle, WakerPc.holds] at holds
    · exact absurd holds.1 (away c)
  rintro ⟨true, nobody, sleeping, -⟩
  have committed : s.Committed p := by
    rcases inv.placed with pc | ⟨pc, -⟩ | running
    · exact .inr ⟨pc, sleeping⟩
    · exact .inl (by simp [pc])
    · simp [running] at sleeping
  obtain ⟨w, between⟩ := inv.seen committed true
  exact nobody w between

end Invariants

/-- The process goes to sleep under another lock, and is woken. -/
theorem no_lost_wakeup_driver : ∃ s : State Unit Unit, s.cond = true ∧ (∀ w, ¬ (s.waker w).between) ∧
    (s.procs initproc).chan = some (.addr 5) ∧ s.sleeper = .off ∧ (s.procs initproc).state ≠ .SLEEPING := by
  let start : State Unit Unit :=
    { procs := fun _ => { Proc.zero with state := .RUNNING }, cond := false, locks := fun _ => none, sleeper := .top,
      cpu := (), waker := fun _ => .idle, sched := fun _ => .run }
  have init : (sleepSystem Unit Unit initproc (.addr 5) .other).Reach start := .init (by simp [sleepSystem, start])
  obtain ⟨s, run, cond, away, chan, off⟩ : ∃ s, (sleepSystem Unit Unit initproc (.addr 5) .other).run start
      (List.replicate 7 (.sleeper false) ++ [.drop ()] ++ List.replicate 6 (.waker ())) = some s ∧ s.cond = true ∧
      (∀ w, ¬ (s.waker w).between) ∧ (s.procs initproc).chan = some (.addr 5) ∧ s.sleeper = .off :=
    ⟨_, rfl, by decide +kernel, by decide +kernel, by decide +kernel, by decide +kernel⟩
  exact ⟨s, cond, away, chan, off, fun asleep => no_lost_wakeup (init.run run) ⟨cond, away, asleep, chan⟩⟩

end Aarch64Os.Kernel.SleepWake
