import Aarch64Os.Base.Exclusives
import Aarch64Os.Base.Spinlock
import Aarch64Os.Base.Transition

/-!
# Spinlocks, instruction by instruction (`kernel/spinlock.c`)

Any number of cores call `acquire` and `release` on any number of locks. The instructions of the loop
and the reads of `holding` are steps of their own, and between two of them other cores go on. What is
stored is seen in one order. Interrupts are left out: `pushcli` masks them before the first step here.
-/

namespace Aarch64Os.Kernel.Spinlocks
set_option autoImplicit false
open Base

inductive Call
  | acquire
  | release
  deriving DecidableEq

/-- What a core does next. -/
inductive Pc (L : Type)
  /-- neither in `acquire` nor in `release` -/
  | out
  /-- `lk->lock`, in `holding` -/
  | holding (call : Call) (l : L)
  /-- `lk->cpuid == cpuid()`, and the branch on the result -/
  | compare (call : Call) (l : L) (lock : BitVec 8)
  | sevl (l : L)
  | wfe (l : L)
  | ldaxrb (l : L)
  /-- `cbnz %w0, 1b` -/
  | cbnz (l : L) (w : BitVec 8)
  | stxrb (l : L)
  /-- `cbnz %w0, 2b` -/
  | again (l : L) (w : BitVec 8)
  /-- `lk->cpuid = cpuid()` -/
  | own (l : L)
  /-- `lk->cpuid = -1` -/
  | disown (l : L)
  | stlrb (l : L)
  | panic (call : Call) (l : L)
  deriving DecidableEq

/-- The fields of the locks, with nobody for -1, and what each core has of each lock, which nothing reads. -/
structure State (C L : Type) where
  lock : Cells C L (BitVec 8)
  cpuid : L → Option C
  pc : C → Pc L
  grip : C → L → Grip

/-- A core calls a function, or goes on. The architecture may end a wait or a tag, or let an exclusive store fail. -/
inductive Label (C L : Type)
  | call (c : C) (call : Call) (l : L)
  | go (c : C)
  | wake (c : C)
  | clear (c : C)
  | fail (c : C)

variable {C L : Type} [DecidableEq C] [DecidableEq L]

/-- A core is at another step. -/
def State.at (s : State C L) (c : C) (pc : Pc L) : State C L := { s with pc := Function.update s.pc c pc }

namespace State
variable (s : State C L) (c : C)

/-- What a core has of a lock changes. -/
def grips (l : L) (g : Grip) : State C L := { s with grip := Function.update s.grip c (Function.update (s.grip c) l g) }

/-- `holding`, from what it has read. -/
def holds (l : L) (lock : BitVec 8) : Bool := lock ≠ 0 && s.cpuid l = some c

/-- The next step of a core. -/
def go : Option (State C L) :=
  match s.pc c with
  | .out | .panic _ _ => none
  | .holding call l => some (s.at c (.compare call l (s.lock.value l)))
  | .compare .acquire l lock => some (s.at c (if s.holds c l lock then .panic .acquire l else .sevl l))
  | .compare .release l lock => some (s.at c (if s.holds c l lock then .disown l else .panic .release l))
  | .sevl l => some { s.at c (.wfe l) with lock := s.lock.signal c }
  | .wfe l => (s.lock.wait c).map fun lock => { s.at c (.ldaxrb l) with lock }
  | .ldaxrb l => some { s.at c (.cbnz l (s.lock.value l)) with lock := s.lock.tagged c l }
  | .cbnz l w => some (s.at c (if w = 0 then .stxrb l else .wfe l))
  | .stxrb l =>
    if s.lock.tag c = some l then some { (s.at c (.again l 0)).grips c l .taken with lock := s.lock.store c l 1 }
    else some { s.at c (.again l 1) with lock := s.lock.untagged c }
  | .again l w => some (s.at c (if w = 0 then .own l else .ldaxrb l))
  | .own l => some { (s.at c .out).grips c l .recorded with cpuid := Function.update s.cpuid l (some c) }
  | .disown l => some { (s.at c (.stlrb l)).grips c l .taken with cpuid := Function.update s.cpuid l none }
  | .stlrb l => some { (s.at c .out).grips c l .none with lock := s.lock.store c l 0 }

def step (s : State C L) : Label C L → Option (State C L)
  | .call c call l => if s.pc c = .out then some (s.at c (.holding call l)) else none
  | .go c => s.go c
  | .wake c =>
    match s.pc c with
    | .wfe l => some (s.at c (.ldaxrb l))
    | _ => none
  | .clear c => some { s with lock := (s.lock.untagged c).signal c }
  | .fail c =>
    match s.pc c with
    | .stxrb l => some { s.at c (.again l 1) with lock := s.lock.untagged c }
    | _ => none

end State

/-- Locks behind `lock_init`. -/
def lockInit : State C L where
  lock := { value := fun _ => 0, tag := fun _ => none, event := fun _ => false }
  cpuid _ := none
  pc _ := .out
  grip _ _ := .none

def system : System (State C L) (Label C L) where
  init s := s = lockInit
  step := State.step

/-- The lock that a core has stored to, or is about to give back. -/
def Pc.between : Pc L → Option L
  | .again l w => if w = 0 then some l else none
  | .own l | .stlrb l => some l
  | _ => none

/-- What a core knows where it is. -/
def Knows (s : State C L) (c : C) : Pc L → Prop
  | .out | .holding _ _ | .own _ | .stlrb _ => True
  | .compare _ l lock => s.grip c l = .recorded → lock ≠ 0
  | .sevl l | .ldaxrb l => s.grip c l = .none
  | .wfe l => s.grip c l = .none ∧ ∃ w, w ≠ 0 ∧ s.lock.Alert c l w
  | .cbnz l w => s.grip c l = .none ∧ s.lock.Fresh c l w ∧ s.lock.Alert c l w
  | .stxrb l => s.grip c l = .none ∧ s.lock.Fresh c l 0
  | .again l w => w ≠ 0 → s.grip c l = .none
  | .disown l => s.grip c l = .recorded
  | .panic call l => call = .acquire ↔ s.grip c l = .recorded

structure Inv (s : State C L) : Prop where
  lock : ∀ l, Recorded (s.lock.value l ≠ 0) (s.cpuid l) fun c => s.grip c l
  between : ∀ c l, s.grip c l = .taken ↔ (s.pc c).between = some l
  knows : ∀ c, Knows s c (s.pc c)

section Steps
variable {s t : State C L} {c c' : C} {l : L} {pc : Pc L} {x : Cells C L (BitVec 8)}

omit [DecidableEq C] [DecidableEq L] in
/-- Others do not change what a core knows. -/
theorem Knows.spared (h : Knows s c pc) (same : t.grip c = s.grip c) (others : s.lock.Spares c t.lock) : Knows t c pc := by
  unfold Knows at h ⊢
  cases pc with
  | out | holding | own | stlrb => trivial
  | compare | sevl | ldaxrb | again | disown | panic =>
    rw [same]
    exact h
  | wfe l =>
    obtain ⟨none, w, ne, alert⟩ := h
    exact ⟨by rw [same]; exact none, w, ne, alert.spared others⟩
  | cbnz l w =>
    obtain ⟨none, fresh, alert⟩ := h
    exact ⟨by rw [same]; exact none, fresh.spared others, alert.spared others⟩
  | stxrb l =>
    obtain ⟨none, fresh⟩ := h
    exact ⟨by rw [same]; exact none, fresh.spared others⟩

omit [DecidableEq C] [DecidableEq L] in
/-- A step of one core. -/
theorem Inv.next (h : Inv s) (others : ∀ c' ≠ c, t.pc c' = s.pc c' ∧ t.grip c' = s.grip c' ∧ s.lock.Spares c' t.lock)
    (lock : ∀ l, Recorded (t.lock.value l ≠ 0) (t.cpuid l) fun c => t.grip c l) (between : ∀ l, t.grip c l = .taken ↔ (t.pc c).between = some l)
    (knows : Knows t c (t.pc c)) : Inv t := by
  refine ⟨lock, ?_, ?_⟩
  · intro c' l
    rcases eq_or_ne c' c with rfl | ne
    · exact between l
    · obtain ⟨pc, grip, -⟩ := others c' ne
      rw [pc, grip]
      exact h.between c' l
  · intro c'
    rcases eq_or_ne c' c with rfl | ne
    · exact knows
    · obtain ⟨pc, grip, spares⟩ := others c' ne
      rw [pc]
      exact (h.knows c').spared grip spares

omit [DecidableEq L] in
/-- A step that takes no lock and gives none back. -/
theorem Inv.quiet (h : Inv s) (values : x.value = s.lock.value) (spares : ∀ c' ≠ c, s.lock.Spares c' x) (between : pc.between = (s.pc c).between)
    (knows : Knows { s with lock := x } c pc) : Inv { s.at c pc with lock := x } := by
  have here : (s.at c pc).pc c = pc := Function.update_self ..
  refine h.next (c := c) ?_ ?_ ?_ ?_
  · intro c' ne
    exact ⟨Function.update_of_ne ne .., rfl, spares c' ne⟩
  · intro l
    show Recorded (x.value l ≠ 0) (s.cpuid l) fun c => s.grip c l
    rw [values]
    exact h.lock l
  · intro l
    show s.grip c l = .taken ↔ ((s.at c pc).pc c).between = some l
    rw [here, between]
    exact h.between c l
  · show Knows { s.at c pc with lock := x } c ((s.at c pc).pc c)
    rw [here]
    exact knows

/-- A step that changes what a core has of a lock. -/
theorem Inv.grips {g : Grip} {cpuid : L → Option C} (h : Inv s) (spares : ∀ c' ≠ c, s.lock.Spares c' x)
    (only : ∀ l', l' ≠ l → x.value l' = s.lock.value l' ∧ cpuid l' = s.cpuid l')
    (lock : Recorded (x.value l ≠ 0) (cpuid l) (Function.update (fun c => s.grip c l) c g))
    (before : (s.pc c).between = none ∨ (s.pc c).between = some l) (between : pc.between = if g = .taken then some l else none)
    (knows : ∀ t, Knows t c pc) : Inv { (s.at c pc).grips c l g with lock := x, cpuid := cpuid } := by
  have here : Function.update s.pc c pc c = pc := Function.update_self ..
  have mine : Function.update s.grip c (Function.update (s.grip c) l g) c = Function.update (s.grip c) l g := Function.update_self ..
  have column : ∀ l', l' ≠ l → (fun c' => Function.update s.grip c (Function.update (s.grip c) l g) c' l') = fun c' => s.grip c' l' := by
    intro l' ne
    funext c'
    rcases eq_or_ne c' c with rfl | other
    · rw [mine, Function.update_of_ne ne]
    · rw [Function.update_of_ne other]
  refine h.next (c := c) ?_ ?_ ?_ ?_
  · intro c' ne
    exact ⟨Function.update_of_ne ne .., Function.update_of_ne ne .., spares c' ne⟩
  · intro l'
    show Recorded (x.value l' ≠ 0) (cpuid l') fun c' => Function.update s.grip c (Function.update (s.grip c) l g) c' l'
    rcases eq_or_ne l' l with rfl | ne
    · have same : (fun c' => Function.update s.grip c (Function.update (s.grip c) l' g) c' l') = Function.update (fun c => s.grip c l') c g := by
        funext c'
        rcases eq_or_ne c' c with rfl | other
        · rw [mine, Function.update_self, Function.update_self]
        · rw [Function.update_of_ne other, Function.update_of_ne other]
      rw [same]
      exact lock
    · rw [column l' ne, (only l' ne).1, (only l' ne).2]
      exact h.lock l'
  · intro l'
    show Function.update s.grip c (Function.update (s.grip c) l g) c l' = .taken ↔ (Function.update s.pc c pc c).between = some l'
    rw [mine, here, between]
    rcases eq_or_ne l' l with rfl | ne
    · rw [Function.update_self]
      simp
    · have other : s.grip c l' ≠ .taken := by
        rw [Ne, h.between c l']
        rcases before with none | some
        · rw [none]
          simp
        · rw [some, Option.some_inj]
          exact Ne.symm ne
      rw [Function.update_of_ne ne]
      refine iff_of_false other ?_
      split
      · rw [Option.some_inj]
        exact Ne.symm ne
      · simp
  · show Knows _ c (Function.update s.pc c pc c)
    rw [here]
    exact knows _

omit [DecidableEq L] in
/-- What `holding` returns is right. -/
theorem Inv.holds (h : Inv s) {lock : BitVec 8} (read : s.grip c l = .recorded → lock ≠ 0) : s.holds c l lock = true ↔ s.grip c l = .recorded := by
  rw [← (h.lock l).owner c, State.holds]
  have owner := (h.lock l).owner c
  constructor
  · intro both
    simp at both
    exact both.2
  · intro mine
    have taken := read (owner.1 mine)
    simp [mine]
    exact taken

omit [DecidableEq C] [DecidableEq L] in
/-- Locks are free at first. -/
theorem lockInit_inv : Inv (lockInit : State C L) := by
  refine ⟨?_, ?_, ?_⟩
  · intro l
    refine ⟨?_, ?_, ?_⟩
    · intro c c' taken
      exact absurd rfl taken
    · simp [lockInit]
    · intro c
      simp [lockInit]
  · intro c l
    simp [lockInit, Pc.between]
  · intro c
    trivial

/-- **One step of a core.** -/
theorem Inv.go (h : Inv s) (step : s.go c = some t) : Inv t := by
  have knows := h.knows c
  have mid := h.between c
  have self : ∀ c' ≠ c, s.lock.Spares c' s.lock := fun _ _ => Cells.spares_self
  cases pc : s.pc c with
  | out | panic =>
    simp only [State.go, pc] at step
    cases step
  | holding call l =>
    simp only [State.go, pc, Option.some.injEq] at step
    subst step
    refine h.quiet rfl self (by rw [pc]; rfl) ?_
    -- a lock that it has is not free
    intro mine
    have taken := (h.lock l).lock.2 ⟨c, by rw [mine]; decide⟩
    exact of_decide_eq_true taken
  | compare call l lock =>
    rw [pc] at knows
    have right := h.holds knows
    cases call with
    | acquire =>
      simp only [State.go, pc, Option.some.injEq] at step
      subst step
      by_cases mine : s.grip c l = .recorded
      · rw [if_pos (right.2 mine)]
        exact h.quiet rfl self (by rw [pc]; rfl) (iff_of_true rfl mine)
      · rw [if_neg (mt right.1 mine)]
        refine h.quiet rfl self (by rw [pc]; rfl) ?_
        show s.grip c l = .none
        have free : s.grip c l ≠ .taken := by
          rw [Ne, mid l, pc]
          simp [Pc.between]
        cases grip : s.grip c l with
        | none => rfl
        | taken => exact absurd grip free
        | recorded => exact absurd grip mine
    | release =>
      simp only [State.go, pc, Option.some.injEq] at step
      subst step
      by_cases mine : s.grip c l = .recorded
      · rw [if_pos (right.2 mine)]
        exact h.quiet rfl self (by rw [pc]; rfl) mine
      · rw [if_neg (mt right.1 mine)]
        exact h.quiet rfl self (by rw [pc]; rfl) (iff_of_false (by decide) mine)
  | sevl l =>
    rw [pc] at knows
    simp only [State.go, pc, Option.some.injEq] at step
    subst step
    exact h.quiet rfl (fun _ ne => Cells.signal_spares (Ne.symm ne)) (by rw [pc]; rfl) ⟨knows, 1, by decide, .inl (Function.update_self ..)⟩
  | wfe l =>
    rw [pc] at knows
    simp only [State.go, pc] at step
    obtain ⟨x, waited, rfl⟩ := Option.map_eq_some_iff.1 step
    have values : x.value = s.lock.value := by
      obtain ⟨-, eq⟩ := Option.ite_none_right_eq_some.1 waited
      rw [← Option.some.inj eq]
    exact h.quiet values (fun _ ne => Cells.wait_spares (Ne.symm ne) waited) (by rw [pc]; rfl) knows.1
  | ldaxrb l =>
    rw [pc] at knows
    simp only [State.go, pc, Option.some.injEq] at step
    subst step
    exact h.quiet rfl (fun _ ne => Cells.tagged_spares (Ne.symm ne)) (by rw [pc]; rfl) ⟨knows, Cells.fresh_tagged, Cells.alert_tagged⟩
  | cbnz l w =>
    rw [pc] at knows
    obtain ⟨none, fresh, alert⟩ := knows
    simp only [State.go, pc, Option.some.injEq] at step
    subst step
    by_cases zero : w = 0
    · subst zero
      exact h.quiet rfl self (by rw [pc]; rfl) ⟨none, fresh⟩
    · rw [if_neg zero]
      exact h.quiet rfl self (by rw [pc]; rfl) ⟨none, w, zero, alert⟩
  | stxrb l =>
    rw [pc] at knows
    obtain ⟨none, fresh⟩ := knows
    simp only [State.go, pc] at step
    by_cases there : s.lock.tag c = some l
    · rw [if_pos there] at step
      obtain rfl := Option.some.inj step
      have free : Recorded false (s.cpuid l) fun c => s.grip c l := by
        have lock := h.lock l
        rwa [fresh there] at lock
      refine h.grips (fun _ ne => Cells.store_spares (Ne.symm ne)) (fun l' ne => ⟨Function.update_of_ne ne .., rfl⟩) ?_ (.inl (by rw [pc]; rfl)) rfl
        fun t ne => absurd rfl ne
      have stored : (s.lock.store c l 1).value l = 1 := Function.update_self ..
      rw [stored]
      exact free.take c
    · rw [if_neg there] at step
      obtain rfl := Option.some.inj step
      exact h.quiet rfl (fun _ ne => Cells.untagged_spares (Ne.symm ne)) (by rw [pc]; rfl) fun _ => none
  | again l w =>
    rw [pc] at knows
    simp only [State.go, pc, Option.some.injEq] at step
    subst step
    by_cases zero : w = 0
    · subst zero
      exact h.quiet rfl self (by rw [pc]; rfl) trivial
    · have before : (s.pc c).between = none := by
        rw [pc]
        exact if_neg zero
      rw [if_neg zero]
      exact h.quiet rfl self before.symm (knows zero)
  | own l =>
    simp only [State.go, pc, Option.some.injEq] at step
    subst step
    have mine : s.grip c l = .taken := by
      rw [mid l, pc]
      rfl
    refine h.grips self (fun l' ne => ⟨rfl, Function.update_of_ne ne ..⟩) ?_ (.inr (by rw [pc]; rfl)) rfl fun _ => trivial
    exact (h.lock l).moves (by rw [mine]; decide) (by decide) (Function.update_self ..)
  | disown l =>
    rw [pc] at knows
    simp only [State.go, pc, Option.some.injEq] at step
    subst step
    have mine : s.grip c l = .recorded := knows
    refine h.grips self (fun l' ne => ⟨rfl, Function.update_of_ne ne ..⟩) ?_ (.inl (by rw [pc]; rfl)) rfl fun _ => trivial
    exact (h.lock l).moves (by rw [mine]; decide) (by decide) (Function.update_self ..)
  | stlrb l =>
    simp only [State.go, pc, Option.some.injEq] at step
    subst step
    have mine : s.grip c l = .taken := by
      rw [mid l, pc]
      rfl
    refine h.grips (fun _ ne => Cells.store_spares (Ne.symm ne)) (fun l' ne => ⟨Function.update_of_ne ne .., rfl⟩) ?_ (.inr (by rw [pc]; rfl)) rfl fun _ => trivial
    have stored : (s.lock.store c l 0).value l = 0 := Function.update_self ..
    rw [stored]
    exact (h.lock l).free mine

theorem Inv.step {a : Label C L} (h : Inv s) (step : s.step a = some t) : Inv t := by
  have self : ∀ c, ∀ c' ≠ c, s.lock.Spares c' s.lock := fun _ _ _ => Cells.spares_self
  cases a with
  | go c => exact h.go step
  | call c call l =>
    obtain ⟨out, eq⟩ := Option.ite_none_right_eq_some.1 step
    obtain rfl := Option.some.inj eq
    exact h.quiet rfl (self c) (by rw [out]; rfl) trivial
  | wake c =>
    have knows := h.knows c
    cases pc : s.pc c with
    | wfe l =>
      rw [pc] at knows
      simp only [State.step, pc, Option.some.injEq] at step
      subst step
      exact h.quiet rfl (self c) (by rw [pc]; rfl) knows.1
    | _ =>
      simp only [State.step, pc] at step
      cases step
  | fail c =>
    have knows := h.knows c
    cases pc : s.pc c with
    | stxrb l =>
      rw [pc] at knows
      simp only [State.step, pc, Option.some.injEq] at step
      subst step
      exact h.quiet rfl (fun _ ne => Cells.untagged_spares (Ne.symm ne)) (by rw [pc]; rfl) fun _ => knows.1
    | _ =>
      simp only [State.step, pc] at step
      cases step
  | clear c =>
    obtain rfl := Option.some.inj step
    have gone : s.lock.Spares c ((s.lock.untagged c).signal c) := .inr ⟨Function.update_self .., Function.update_self ..⟩
    refine h.next (c := c) ?_ h.lock (h.between c) ((h.knows c).spared rfl gone)
    intro c' ne
    refine ⟨rfl, rfl, .inl ⟨Function.update_of_ne ne .., Function.update_of_ne ne .., fun _ _ => rfl⟩⟩

theorem Inv.reached (run : system.Reach s) : Inv s := by
  apply System.Via.invariant (I := Inv) _ _ run
  · rintro u rfl
    exact lockInit_inv
  · intro u a v h _ step
    exact h.step step

omit [DecidableEq C] [DecidableEq L] in
/-- A core that waits for a lock that is free has an event. -/
theorem Inv.awake (h : Inv s) (free : ∀ c', s.grip c' l = .none) (waits : s.pc c = .wfe l) : s.lock.event c = true := by
  have knows := h.knows c
  rw [waits] at knows
  obtain ⟨-, w, ne, alert⟩ := knows
  rcases alert with event | ⟨-, value⟩
  · exact event
  · have taken : decide (s.lock.value l ≠ 0) = true := by
      rw [value]
      exact decide_eq_true ne
    obtain ⟨c', holds⟩ := (h.lock l).lock.1 taken
    exact absurd (free c') holds

end Steps

section Runs

/-- Two cores want a lock: one has it, and the other waits. -/
def contended : List (Label Bool Unit) :=
  .call true .acquire () :: (List.replicate 8 (.go true) ++ .call false .acquire () :: List.replicate 6 (.go false))

theorem contended_runs : ∃ s, system.run lockInit contended = some s ∧ s.pc false = .wfe () ∧ s.lock.event false = false := by
  have ran : (system.run lockInit contended).map (fun s => (s.pc false, s.lock.event false)) = some (.wfe (), false) := by decide
  obtain ⟨s, run, eq⟩ := Option.map_eq_some_iff.1 ran
  exact ⟨s, run, (Prod.mk.inj eq).1, (Prod.mk.inj eq).2⟩

end Runs

section Progress
variable {s t : State C L} {c : C} {l : L}

/-- In the loop of `acquire`. -/
def Pc.waits : Pc L → Option L
  | .sevl l | .wfe l | .ldaxrb l | .cbnz l _ | .stxrb l => some l
  | .again l w => if w = 0 then none else some l
  | _ => none

/-- How many steps a core needs for a lock that is free. -/
def State.left (s : State C L) (c : C) : Nat :=
  match s.pc c with
  | .sevl _ => 5
  | .wfe _ | .again _ _ => 4
  | .ldaxrb _ => 3
  | .cbnz l w => if w ≠ 0 then 5 else if s.lock.tag c = some l then 2 else 6
  | .stxrb l => if s.lock.tag c = some l then 1 else 5
  | _ => 0

/-- A step to a lock that is free. -/
theorem Inv.nearer (h : Inv s) (free : ∀ c', s.grip c' l = .none) (waits : (s.pc c).waits = some l) :
    ∃ t, s.go c = some t ∧ (0 < s.left c ∧ t.grip c l = .taken ∨ t.grip = s.grip ∧ (t.pc c).waits = some l ∧ t.left c < s.left c) := by
  have zero : s.lock.value l = 0 := by
    have lock := (h.lock l).lock
    by_contra ne
    obtain ⟨c', taken⟩ := lock.1 (decide_eq_true ne)
    exact taken (free c')
  have at_ : ∀ pc, Function.update s.pc c pc c = pc := fun pc => Function.update_self ..
  cases pc : s.pc c with
  | out | holding | compare | own | disown | stlrb | panic =>
    rw [pc] at waits
    cases waits
  | sevl l' =>
    rw [pc] at waits
    obtain rfl := Option.some.inj waits
    have step : s.go c = some { s.at c (.wfe l') with lock := s.lock.signal c } := by simp only [State.go, pc]
    refine ⟨_, step, .inr ⟨rfl, ?_, ?_⟩⟩
    · show (Function.update s.pc c (.wfe l') c).waits = some l'
      rw [at_]
      rfl
    · simp [State.left, State.at, pc]
  | wfe l' =>
    rw [pc] at waits
    obtain rfl := Option.some.inj waits
    have event := h.awake free pc
    have step : s.go c = some { s.at c (.ldaxrb l') with lock := { s.lock with event := Function.update s.lock.event c false } } := by
      simp only [State.go, pc, Cells.wait, event]
      rfl
    refine ⟨_, step, .inr ⟨rfl, ?_, ?_⟩⟩
    · show (Function.update s.pc c (.ldaxrb l') c).waits = some l'
      rw [at_]
      rfl
    · simp [State.left, State.at, pc]
  | ldaxrb l' =>
    rw [pc] at waits
    obtain rfl := Option.some.inj waits
    have step : s.go c = some { s.at c (.cbnz l' 0) with lock := s.lock.tagged c l' } := by simp only [State.go, pc, zero]
    refine ⟨_, step, .inr ⟨rfl, ?_, ?_⟩⟩
    · show (Function.update s.pc c (.cbnz l' 0) c).waits = some l'
      rw [at_]
      rfl
    · simp [State.left, State.at, pc, Cells.tagged]
  | cbnz l' w =>
    rw [pc] at waits
    obtain rfl := Option.some.inj waits
    have step : s.go c = some (s.at c (if w = 0 then .stxrb l' else .wfe l')) := by simp only [State.go, pc]
    refine ⟨_, step, .inr ⟨rfl, ?_, ?_⟩⟩
    · show (Function.update s.pc c (if w = 0 then .stxrb l' else .wfe l') c).waits = some l'
      rw [at_]
      split
      · rfl
      · rfl
    · by_cases w0 : w = 0
      · simp [State.left, State.at, pc, w0]
        split
        · omega
        · omega
      · have ne : ¬w = 0#8 := w0
        simp [State.left, State.at, pc, ne]
  | stxrb l' =>
    rw [pc] at waits
    obtain rfl := Option.some.inj waits
    by_cases there : s.lock.tag c = some l'
    · have step : s.go c = some { (s.at c (.again l' 0)).grips c l' .taken with lock := s.lock.store c l' 1 } := by
        simp only [State.go, pc, if_pos there]
      refine ⟨_, step, .inl ⟨?_, ?_⟩⟩
      · simp [State.left, pc, there]
      · show Function.update s.grip c (Function.update (s.grip c) l' .taken) c l' = .taken
        rw [Function.update_self, Function.update_self]
    · have step : s.go c = some { s.at c (.again l' 1) with lock := s.lock.untagged c } := by
        simp only [State.go, pc, if_neg there]
      refine ⟨_, step, .inr ⟨rfl, ?_, ?_⟩⟩
      · show (Function.update s.pc c (.again l' 1) c).waits = some l'
        rw [at_]
        rfl
      · simp [State.left, State.at, pc, there]
  | again l' w =>
    rw [pc] at waits
    obtain ⟨ne, eq⟩ := Option.ite_none_left_eq_some.1 waits
    obtain rfl := Option.some.inj eq
    have step : s.go c = some (s.at c (.ldaxrb l')) := by simp only [State.go, pc, if_neg ne]
    refine ⟨_, step, .inr ⟨rfl, ?_, ?_⟩⟩
    · show (Function.update s.pc c (.ldaxrb l') c).waits = some l'
      rw [at_]
      rfl
    · simp [State.left, State.at, pc]

end Progress

/-- A lock is taken or given back at once. -/
inductive Event (C L : Type)
  | take (c : C) (l : L)
  | drop (c : C) (l : L)

/-- Locks as the rest of the kernel sees them: each has an owner or none. -/
def owners : System (L → Option C) (Event C L) where
  init owner := owner = fun _ => none
  step owner
    | .take c l => if owner l = none then some (Function.update owner l (some c)) else none
    | .drop c l => if owner l = some c then some (Function.update owner l none) else none

/-- The store that takes a lock, and the one that gives it back. -/
def State.event (s : State C L) : Label C L → Option (Event C L)
  | .go c =>
    match s.pc c with
    | .stxrb l => if s.lock.tag c = some l then some (.take c l) else none
    | .stlrb l => some (.drop c l)
    | _ => none
  | _ => none

section Atomic
variable {s t : State C L} {owner : L → Option C} {a : Label C L} {c : C} {l : L}

/-- Owners are those who have something of a lock. -/
def Owns (owner : L → Option C) (s : State C L) : Prop := ∀ l c, owner l = some c ↔ s.grip c l ≠ .none

/-- A step that takes no lock and gives none back. -/
theorem Owns.quiet (owns : Owns owner s) (none : s.event a = none) (same : ∀ c l, t.grip c l = .none ↔ s.grip c l = .none) :
    ∃ owner', owners.run owner (s.event a).toList = some owner' ∧ Owns owner' t := by
  refine ⟨owner, by rw [none]; rfl, ?_⟩
  intro l c
  rw [owns l c, Ne, Ne, same c l]

/-- What a core has of a lock. -/
theorem grips_grip (s : State C L) (g : Grip) (c' : C) (l' : L) : (s.grips c l g).grip c' l' = if c' = c ∧ l' = l then g else s.grip c' l' := by
  show Function.update s.grip c (Function.update (s.grip c) l g) c' l' = _
  rcases eq_or_ne c' c with rfl | ne
  · rw [Function.update_self]
    rcases eq_or_ne l' l with rfl | other
    · rw [Function.update_self, if_pos ⟨rfl, rfl⟩]
    · rw [Function.update_of_ne other, if_neg fun both => other both.2]
  · rw [Function.update_of_ne ne, if_neg fun both => ne both.1]

/-- It has something as before. -/
theorem grips_same (s : State C L) {g : Grip} (mine : s.grip c l ≠ .none) (keeps : g ≠ .none) (c' : C) (l' : L) :
    (s.grips c l g).grip c' l' = .none ↔ s.grip c' l' = .none := by
  rw [grips_grip]
  by_cases here : c' = c ∧ l' = l
  · rw [if_pos here, here.1, here.2]
    exact iff_of_false keeps mine
  · rw [if_neg here]

theorem Inv.event_go (h : Inv s) (owns : Owns owner s) (step : s.go c = some t) :
    ∃ owner', owners.run owner (s.event (.go c)).toList = some owner' ∧ Owns owner' t := by
  have knows := h.knows c
  have mid := h.between c
  cases pc : s.pc c with
  | out | panic =>
    simp only [State.go, pc] at step
    cases step
  | compare call l lock =>
    have none : s.event (.go c) = none := by simp only [State.event, pc]
    cases call with
    | acquire =>
      simp only [State.go, pc, Option.some.injEq] at step
      subst step
      exact owns.quiet none fun _ _ => Iff.rfl
    | release =>
      simp only [State.go, pc, Option.some.injEq] at step
      subst step
      exact owns.quiet none fun _ _ => Iff.rfl
  | holding | sevl | ldaxrb | cbnz | again =>
    have none : s.event (.go c) = none := by simp only [State.event, pc]
    simp only [State.go, pc, Option.some.injEq] at step
    subst step
    exact owns.quiet none fun _ _ => Iff.rfl
  | wfe l =>
    have none : s.event (.go c) = none := by simp only [State.event, pc]
    simp only [State.go, pc] at step
    obtain ⟨x, -, rfl⟩ := Option.map_eq_some_iff.1 step
    exact owns.quiet none fun _ _ => Iff.rfl
  | own l =>
    have none : s.event (.go c) = none := by simp only [State.event, pc]
    have mine : s.grip c l ≠ .none := by
      rw [(mid l).2 (by rw [pc]; rfl)]
      decide
    simp only [State.go, pc, Option.some.injEq] at step
    subst step
    exact owns.quiet none (grips_same (s.at c .out) mine (by decide))
  | disown l =>
    rw [pc] at knows
    have none : s.event (.go c) = none := by simp only [State.event, pc]
    have mine : s.grip c l ≠ .none := by
      rw [show s.grip c l = .recorded from knows]
      decide
    simp only [State.go, pc, Option.some.injEq] at step
    subst step
    exact owns.quiet none (grips_same (s.at c (.stlrb l)) mine (by decide))
  | stxrb l =>
    rw [pc] at knows
    simp only [State.go, pc] at step
    by_cases there : s.lock.tag c = some l
    · rw [if_pos there] at step
      obtain rfl := Option.some.inj step
      have event : s.event (.go c) = some (.take c l) := by simp only [State.event, pc, if_pos there]
      have zero : s.lock.value l = 0 := knows.2 there
      have free : ∀ c', s.grip c' l = .none := by
        intro c'
        by_contra taken
        have value := of_decide_eq_true ((h.lock l).lock.2 ⟨c', taken⟩)
        exact value zero
      have nobody : owner l = none := by
        by_contra some
        obtain ⟨c', own⟩ := Option.ne_none_iff_exists'.1 some
        exact (owns l c').1 own (free c')
      refine ⟨Function.update owner l (some c), ?_, ?_⟩
      · rw [event]
        show (owners.step owner (.take c l)).bind some = _
        show (if owner l = none then some (Function.update owner l (some c)) else none).bind some = _
        rw [if_pos nobody]
        rfl
      · intro l' c'
        show _ ↔ ((s.at c (.again l 0)).grips c l .taken).grip c' l' ≠ .none
        rw [grips_grip]
        rcases eq_or_ne l' l with rfl | other
        · rw [Function.update_self]
          by_cases same : c' = c
          · rw [same, if_pos ⟨rfl, rfl⟩]
            exact iff_of_true rfl (by decide)
          · rw [if_neg fun both => same both.1]
            refine iff_of_false (fun eq => same (Option.some.inj eq).symm) (fun ne => ne (free c'))
        · rw [Function.update_of_ne other, if_neg fun both => other both.2]
          exact owns l' c'
    · rw [if_neg there] at step
      obtain rfl := Option.some.inj step
      have none : s.event (.go c) = none := by simp only [State.event, pc, if_neg there]
      exact owns.quiet none fun _ _ => Iff.rfl
  | stlrb l =>
    have event : s.event (.go c) = some (.drop c l) := by simp only [State.event, pc]
    have mine : s.grip c l = .taken := (mid l).2 (by rw [pc]; rfl)
    have own : owner l = some c := (owns l c).2 (by rw [mine]; decide)
    simp only [State.go, pc, Option.some.injEq] at step
    subst step
    refine ⟨Function.update owner l none, ?_, ?_⟩
    · rw [event]
      show (if owner l = some c then some (Function.update owner l none) else none).bind some = _
      rw [if_pos own]
      rfl
    · intro l' c'
      show _ ↔ ((s.at c .out).grips c l .none).grip c' l' ≠ .none
      rw [grips_grip]
      rcases eq_or_ne l' l with rfl | other
      · rw [Function.update_self]
        refine iff_of_false (by simp) ?_
        by_cases same : c' = c
        · simp [same]
        · rw [if_neg fun both => same both.1, Ne, not_not]
          exact (h.lock l').others (by rw [mine]; decide) same
      · rw [Function.update_of_ne other, if_neg fun both => other both.2]
        exact owns l' c'

/-- A step, as the owners see it. -/
theorem Inv.event (h : Inv s) (owns : Owns owner s) (step : s.step a = some t) :
    ∃ owner', owners.run owner (s.event a).toList = some owner' ∧ Owns owner' t := by
  cases a with
  | go c => exact h.event_go owns step
  | call c call l =>
    obtain ⟨-, eq⟩ := Option.ite_none_right_eq_some.1 step
    obtain rfl := Option.some.inj eq
    exact owns.quiet rfl fun _ _ => Iff.rfl
  | clear c =>
    obtain rfl := Option.some.inj step
    exact owns.quiet rfl fun _ _ => Iff.rfl
  | wake c =>
    cases pc : s.pc c with
    | wfe l =>
      simp only [State.step, pc, Option.some.injEq] at step
      subst step
      exact owns.quiet rfl fun _ _ => Iff.rfl
    | _ =>
      simp only [State.step, pc] at step
      cases step
  | fail c =>
    cases pc : s.pc c with
    | stxrb l =>
      simp only [State.step, pc, Option.some.injEq] at step
      subst step
      exact owns.quiet rfl fun _ _ => Iff.rfl
    | _ =>
      simp only [State.step, pc] at step
      cases step

/-- **Locks are taken and given back at once**: the stores of any run of the instructions are a run of locks that have an owner or none. -/
theorem locks_are_atomic {as : List (Label C L)} (ran : system.run lockInit as = some t) :
    ∃ owner, owners.run (fun _ => none) (system.trace State.event lockInit as) = some owner ∧ Owns owner t := by
  have start : Owns (fun _ => none) (lockInit : State C L) := by
    intro l c
    exact iff_of_false (by simp) (by simp [lockInit])
  have h : Inv (lockInit : State C L) := lockInit_inv
  revert h start ran
  generalize (lockInit : State C L) = s
  generalize (fun _ : L => (none : Option C)) = owner
  intro ran owns h
  induction as generalizing s owner with
  | nil =>
    obtain rfl := Option.some.inj ran
    exact ⟨owner, rfl, owns⟩
  | cons a as ih =>
    obtain ⟨u, step, rest⟩ := Option.bind_eq_some_iff.1 ran
    have step' : s.step a = some u := step
    obtain ⟨owner', first, owns'⟩ := h.event owns step'
    obtain ⟨owner'', second, owns''⟩ := ih u owner' rest owns' (h.step step')
    refine ⟨owner'', ?_, owns''⟩
    rw [System.trace_cons step, System.run_append first]
    exact second

theorem locks_are_atomic_contended : ∃ (s : State Bool Unit) (owner : Unit → Option Bool),
    owners.run (fun _ => none) (system.trace State.event lockInit contended) = some owner ∧ Owns owner s := by
  obtain ⟨s, run, -⟩ := contended_runs
  obtain ⟨owner, owned, owns⟩ := locks_are_atomic run
  exact ⟨s, owner, owned, owns⟩

end Atomic

end Aarch64Os.Kernel.Spinlocks
