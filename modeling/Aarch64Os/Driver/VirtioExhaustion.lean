import Aarch64Os.Driver.VirtioChains

/-!
# Exhaustion of the descriptor table

A request takes three of the eight descriptors and `alloc_desc` panics when none is
left, so the third of three overlapping requests stops the machine. Entering only
while at most one other request is unreturned leaves three descriptors for the whole
call, because nobody else can take one while `disk.lk` is held.
-/

namespace Aarch64Os.Driver
set_option autoImplicit false
open Base
open Kernel (NPROC ProcId)

/-- A call takes `disk.lk` on entry only while at most one other request is unreturned. -/
def FewInFlight (s : State) (a : Label) : Prop :=
  ∀ p r, a = .acquire p → s.pc p = .enter r → s.inFlight.card ≤ 1

/-- Every process in the middle of taking descriptors finds all it still needs. -/
def Supplied (s : State) : Prop := ∀ p, (s.pc p).need ≤ s.vq.nfree

theorem Pc.locked_of_need {pc : Pc} (h : 0 < pc.need) : pc.locked = true := by
  cases pc <;> simp [Pc.need, Pc.locked] at h ⊢

/-- With `disk.lk` free nobody is taking descriptors. -/
theorem Exclusive.need_zero {s : State} (h : Exclusive s) (free : s.lk = none) (p : ProcId) :
    (s.pc p).need = 0 := by
  by_contra need
  have := h p (Pc.locked_of_need (by omega))
  simp [free] at this

/-- Only the holder of `disk.lk` can be taking descriptors. -/
theorem Exclusive.need_other {s : State} (h : Exclusive s) {p q : ProcId} (locked : (s.pc p).locked = true)
    (ne : q ≠ p) : (s.pc q).need = 0 := by
  by_contra need
  have hq := h q (Pc.locked_of_need (by omega))
  rw [h p locked] at hq
  simp only [Option.some.injEq, Owner.proc.injEq] at hq
  exact ne hq.symm

/-- Process `p` takes one descriptor: it needs one less, and nobody else needs any. -/
theorem Supplied.take {s : State} {p : ProcId} {x : Pc} (h : Supplied s) (lock : Exclusive s)
    (locked : (s.pc p).locked = true) (need : (s.pc p).need = x.need + 1) :
    ∀ q, (Function.update s.pc p x q).need ≤ s.vq.nfree - 1 := by
  intro q
  by_cases e : q = p
  · subst e
    rw [Function.update_self]
    have := h q
    omega
  · rw [Function.update_of_ne e, lock.need_other locked e]
    omega

/-- Process `p` moves and needs nothing. -/
theorem Supplied.move {s : State} {p : ProcId} {x : Pc} {n : Nat} (h : Supplied s) (need : x.need = 0)
    (le : s.vq.nfree ≤ n) : ∀ q, (Function.update s.pc p x q).need ≤ n := by
  intro q
  by_cases e : q = p
  · subst e; rw [Function.update_self, need]; omega
  · rw [Function.update_of_ne e]; exact (h q).trans le

/-- At most one request unreturned leaves three descriptors. -/
theorem three_free {s : State} (inv : ChainInv s.vq s.pc) (lock : Exclusive s) (free : s.lk = none)
    (few : s.inFlight.card ≤ 1) : 3 ≤ s.vq.nfree := by
  have total := inv.unreturned lock free
  simp only [NQUEUE] at total
  omega

theorem Supplied.step {s t : State} {a : Label} (h : Supplied s) (inv : ChainInv s.vq s.pc) (lock : Exclusive s)
    (few : FewInFlight s a) (st : Step s a t) : Supplied t := by
  cases st with
  | call r out => exact h.move rfl le_rfl
  | @enter p r free out =>
    have three := three_free inv lock free (few p r rfl out)
    intro q
    by_cases e : q = p
    · subst e
      change (Function.update s.pc q (.first r) q).need ≤ s.vq.nfree
      rw [Function.update_self]
      exact three
    · change (Function.update s.pc p (.first r) q).need ≤ s.vq.nfree
      rw [Function.update_of_ne e]
      exact h q
  | @wake p c free out =>
    refine h.move ?_ le_rfl
    split <;> rfl
  | exhausted => exact h
  | first pos out => exact h.take lock (by rw [out]; rfl) (by rw [out]; rfl)
  | second pos out => exact h.take lock (by rw [out]; rfl) (by rw [out]; rfl)
  | third pos out => exact h.take lock (by rw [out]; rfl) (by rw [out]; rfl)
  | publish out => exact h.move rfl le_rfl
  | @finish p c vq out _ freed =>
    refine h.move rfl ?_
    obtain ⟨r, -, rfl⟩ := Option.map_eq_some_iff.1 freed
    exact Nat.le_add_right ..
  | sleep out _ => exact h.move rfl le_rfl
  | kill p =>
    intro q
    by_cases e : q = p
    · subst e
      simpa [State.go] using h q
    · simpa [State.go, Function.update_of_ne e] using h q
  | intr _ => exact h
  | diskError _ => exact h
  | intrEntry _ _ _ => intro q; rw [Pc.need_wake]; exact h q
  | intrExit _ => exact h
  | fetch _ => exact h
  | complete _ => exact h

/-- The panics a step can add. -/
theorem Step.panicked {s t : State} {a : Label} (st : Step s a t) (panic : t.panicked = some "virtq kokatu")
    (before : s.panicked ≠ some "virtq kokatu") : ∃ p, 0 < (s.pc p).need ∧ s.vq.nfree = 0 := by
  cases st with
  | @exhausted p need zero => exact ⟨p, need, zero⟩
  | diskError _ => simp at panic
  | _ => exact absurd panic before

/-- A step of a running machine that takes a descriptor is `State.alloc`. -/
theorem State.step_alloc {s : State} {p : ProcId} (calm : s.panicked = none) : s.step (.alloc p) = s.alloc p := by
  simp [State.step, calm]

/-- A call that enters with two descriptors left takes them and panics. -/
theorem third_alloc_panics {s : State} {p : ProcId} {r : Req} (calm : s.panicked = none) (free : s.lk = none)
    (out : s.pc p = .enter r) (nfree : s.vq.nfree = 2) :
    ∃ t, diskSystem.run s [.acquire p, .alloc p, .alloc p, .alloc p] = some t ∧
      t.panicked = some "virtq kokatu" := by
  let s1 : State := { s.go p (.first r) with lk := some (.proc p) }
  let s2 : State := { s1.go p (.second r s1.vq.freeHead) with vq := fillHdr s1.vq.pop r s1.vq.freeHead }
  let s3 : State := { s2.go p (.third r s1.vq.freeHead s2.vq.freeHead) with
    vq := fillData s2.vq.pop r s1.vq.freeHead s2.vq.freeHead }
  have two : s1.vq.nfree = 2 := nfree
  have one : s2.vq.nfree = 1 := by change s.vq.nfree - 1 = 1; omega
  have zero : s3.vq.nfree = 0 := by change s.vq.nfree - 1 - 1 = 0; omega
  have at1 : s1.pc p = .first r := Function.update_self ..
  have at2 : s2.pc p = .second r s1.vq.freeHead := Function.update_self ..
  have at3 : s3.pc p = .third r s1.vq.freeHead s2.vq.freeHead := Function.update_self ..
  have enter : s.step (.acquire p) = some s1 := by simp [State.step, calm, State.acquire, free, out, s1]
  have take1 : s1.step (.alloc p) = some s2 := by
    rw [State.step_alloc (s := s1) calm]
    simp only [State.alloc, at1, State.take_pos (show 0 < s1.vq.nfree by omega)]
    rfl
  have take2 : s2.step (.alloc p) = some s3 := by
    rw [State.step_alloc (s := s2) calm]
    simp only [State.alloc, at2, State.take_pos (show 0 < s2.vq.nfree by omega)]
    rfl
  have take3 : s3.step (.alloc p) = some { s3 with panicked := some "virtq kokatu" } := by
    rw [State.step_alloc (s := s3) calm]
    simp only [State.alloc, at3, State.take_zero zero]
  refine ⟨{ s3 with panicked := some "virtq kokatu" }, ?_, rfl⟩
  rw [System.run_cons enter, System.run_cons take1, System.run_cons take2, System.run_cons take3]
  rfl

/-- The states of a run whose calls enter with at most one other request unreturned. -/
theorem FewInFlight.supplied {s : State} (h : diskSystem.Via FewInFlight s) :
    (ChainInv s.vq s.pc ∧ Exclusive s) ∧ Supplied s ∧ s.panicked ≠ some "virtq kokatu" := by
  refine h.invariant (I := fun s => (ChainInv s.vq s.pc ∧ Exclusive s) ∧ Supplied s ∧
    s.panicked ≠ some "virtq kokatu") ?_ ?_
  · rintro s rfl
    exact ⟨reach_inv (.init rfl), fun p => Nat.zero_le _, by simp [State.boot]⟩
  · rintro s a t ⟨⟨chains, lock⟩, supplied, calm⟩ few step
    have st := State.step_inv step
    refine ⟨⟨chains.step st, lock.step st⟩, supplied.step chains lock few st, fun panic => ?_⟩
    obtain ⟨p, need, zero⟩ := st.panicked panic calm
    have := supplied p
    omega

/-- **When the driver survives.** In a run whose calls each enter with at most one other
request unreturned, `alloc_desc` never panics; and in any state reached, a call that
enters while two are unreturned reaches the panic at its third `alloc_desc`. -/
theorem alloc_desc_panics_iff (s : State) :
    (diskSystem.Via FewInFlight s → s.panicked ≠ some "virtq kokatu") ∧
    (∀ p r, diskSystem.Reach s → s.panicked = none → s.lk = none → s.pc p = .enter r → 2 ≤ s.inFlight.card →
      ∃ t, diskSystem.run s [.acquire p, .alloc p, .alloc p, .alloc p] = some t ∧
        t.panicked = some "virtq kokatu") := by
  refine ⟨fun h => (FewInFlight.supplied h).2.2, fun p r reach calm free out two => ?_⟩
  obtain ⟨chains, lock⟩ := reach_inv reach
  have total := chains.unreturned lock free
  simp only [NQUEUE] at total
  exact third_alloc_panics calm free out (by omega)

/-- Two calls asleep in the driver and a third one about to enter. -/
def crowd : List Label :=
  submit 0 ⟨1, 0x1000, .DREAD⟩ ++ submit 1 ⟨2, 0x2000, .DREAD⟩ ++ [.call 2 ⟨3, 0x3000, .DREAD⟩]

/-- Where `crowd` leads: two descriptors are left. -/
theorem crowd_state : ∃ s, diskSystem.run State.boot crowd = some s ∧ s.panicked = none ∧ s.lk = none ∧
    s.pc 2 = .enter ⟨3, 0x3000, .DREAD⟩ ∧ s.vq.nfree = 2 :=
  ⟨_, rfl, rfl, rfl, rfl, rfl⟩

/-- The first state does not panic; the third call of `crowd` does. -/
theorem alloc_desc_panics_iff_crowd :
    State.boot.panicked ≠ some "virtq kokatu" ∧
    ∃ s t, diskSystem.run State.boot crowd = some s ∧
      diskSystem.run s [.acquire 2, .alloc 2, .alloc 2, .alloc 2] = some t ∧ t.panicked = some "virtq kokatu" := by
  refine ⟨(alloc_desc_panics_iff State.boot).1 (.init rfl), ?_⟩
  obtain ⟨s, run, calm, free, out, nfree⟩ := crowd_state
  have reached : diskSystem.Reach s := System.Via.run (.init rfl) run
  have total := (reach_inv reached).1.unreturned (reach_inv reached).2 free
  simp only [NQUEUE] at total
  obtain ⟨t, run', panic⟩ := (alloc_desc_panics_iff s).2 2 _ reached calm free out (by omega)
  exact ⟨s, t, run, run', panic⟩

/-- Three overlapping requests reach the panic. -/
theorem alloc_desc_panic_reached : ¬ ∀ s, diskSystem.Reach s → s.panicked ≠ some "virtq kokatu" := by
  intro never
  obtain ⟨s, run, calm, free, out, nfree⟩ := crowd_state
  obtain ⟨t, run', panic⟩ := third_alloc_panics calm free out nfree
  exact never t (.run (.run (.init rfl) run) run') panic

end Aarch64Os.Driver
