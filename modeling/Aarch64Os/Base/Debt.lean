import Aarch64Os.Base.Ends
import Mathlib.Algebra.Order.Monoid.Defs
import Mathlib.Algebra.Order.Monoid.Unbundled.Basic

/-!
# Programs that may keep what they take

A program runs on a state and may fail. A measure `r` says how much of a resource is taken in
a state. `Owes r d f s P` says that `f`, started in `s` with a debt of `d`, never ends below
what pays it back, and ends there exactly when `P` holds. So a program without a debt that
takes something and returns by an exit that does not give it back shows in `P`. The rules
follow the program text; state, failure and resource are parameters.
-/

namespace Base
set_option autoImplicit false

variable {σ ε ρ α β : Type} [AddCommMonoid ρ] {r : σ → ρ} {d : ρ} {s t : σ} {P Q : Prop}

/-- From `s`, `f` takes `d`, which may depend on its result. -/
def Takes (r : σ → ρ) (f : StateT σ (Except ε) α) (s : σ) (d : α → ρ) : Prop := ∀ a t, f s = .ok (a, t) → r t = r s + d a

/-- From `s`, `f` pays back `d` at most, and all of it exactly when `P` holds. -/
def Owes [PartialOrder ρ] (r : σ → ρ) (d : ρ) (f : StateT σ (Except ε) α) (s : σ) (P : Prop) : Prop :=
  ∀ a t, f s = .ok (a, t) → r s ≤ r t + d ∧ (r t + d = r s ↔ P)

namespace Takes
variable {f : StateT σ (Except ε) α} {g : α → StateT σ (Except ε) β} {e : β → ρ}

theorem pure (a : α) : Takes r (Pure.pure a : StateT σ (Except ε) α) s fun _ => 0 := by
  intro b t run
  cases run
  rw [add_zero]

theorem throw (x : ε) (d : α → ρ) : Takes r (MonadExcept.throw x : StateT σ (Except ε) α) s d := by
  intro b t run
  cases run

theorem bind {d : α → ρ} {total : β → ρ} (first : Takes r f s d) (second : ∀ a u, f s = .ok (a, u) → Takes r (g a) u e)
    (sum : ∀ a b, d a + e b = total b) : Takes r (f >>= g) s total := by
  intro b t run
  obtain ⟨a, u, run, run'⟩ := run_bind.1 run
  rw [second a u run b t run', first a u run, add_assoc, sum a b]

/-- A first part that takes nothing. -/
theorem bind_free (first : Takes r f s fun _ => 0) (second : ∀ a u, f s = .ok (a, u) → Takes r (g a) u e) :
    Takes r (f >>= g) s e :=
  first.bind second fun _ _ => zero_add _

/-- A first part that is known, and takes nothing. -/
theorem step {a : α} (run : f s = .ok (a, t)) (same : r t = r s) (rest : Takes r (g a) t e) : Takes r (f >>= g) s e := by
  intro b u run'
  obtain ⟨a', t', again, run'⟩ := run_bind.1 run'
  rw [run] at again
  cases again
  rw [rest b u run', same]

end Takes

namespace Owes
variable [PartialOrder ρ] {f f' : StateT σ (Except ε) α} {g : α → StateT σ (Except ε) β} {D : α → σ → Prop}

theorem congr (h : Owes r d f s P) (same : P ↔ Q) : Owes r d f s Q :=
  fun a t run => ⟨(h a t run).1, (h a t run).2.trans same⟩

theorem throw (x : ε) (P : Prop) : Owes r d (MonadExcept.throw x : StateT σ (Except ε) α) s P := by
  intro a t run
  cases run

/-- A program that takes nothing owes nothing. -/
theorem of_takes (h : Takes r f s fun _ => 0) : Owes r 0 f s True := by
  intro a t run
  simp [h a t run]

/-- A program that always ends with nothing lost takes nothing. -/
theorem takes (h : Owes r 0 f s True) : Takes r f s fun _ => 0 := by
  intro a t run
  rw [add_zero, ← (h a t run).2.2 trivial, add_zero]

/-- Returning with nothing owed. -/
theorem pure (a : α) : Owes r 0 (Pure.pure a : StateT σ (Except ε) α) s True := of_takes (Takes.pure a)

/-- A program that pays `d` back. -/
theorem of_gives (h : ∀ a t, f s = .ok (a, t) → r t + d = r s) : Owes r d f s True := by
  intro a t run
  simp [h a t run]

/-- A first part that is known, and takes nothing. -/
theorem step {a : α} (run : f s = .ok (a, t)) (same : r t = r s) (rest : Owes r d (g a) t P) : Owes r d (f >>= g) s P := by
  intro b u run'
  obtain ⟨a', t', again, run'⟩ := run_bind.1 run'
  rw [run] at again
  cases again
  rw [← same]
  exact rest b u run'

variable [IsOrderedCancelAddMonoid ρ]

/-- Two parts share a debt. -/
theorem share {d d' : ρ} (first : Owes r d f s P) (second : ∀ a u, f s = .ok (a, u) → Owes r d' (g a) u Q) :
    Owes r (d' + d) (f >>= g) s (P ∧ Q) := by
  intro b t run
  obtain ⟨a, u, run, run'⟩ := run_bind.1 run
  obtain ⟨le, iff⟩ := first a u run
  obtain ⟨le', iff'⟩ := second a u run b t run'
  have total : r u + d ≤ r t + (d' + d) := by
    rw [← add_assoc]
    exact add_le_add_left le' d
  refine ⟨le.trans total, fun same => ?_, fun ⟨here, behind⟩ => ?_⟩
  · -- nothing is lost in the end, so nothing in between
    have between : r u + d = r s := le_antisymm (total.trans same.le) le
    have rest : r t + d' + d = r u + d := by rw [add_assoc, same, between]
    exact ⟨iff.1 between, iff'.1 (add_right_cancel rest)⟩
  · rw [← add_assoc, iff'.2 behind, iff.2 here]

/-- The debt is paid back behind a program without one. -/
theorem bind (first : Owes r 0 f s P) (second : ∀ a u, f s = .ok (a, u) → Owes r d (g a) u Q) : Owes r d (f >>= g) s (P ∧ Q) := by
  have both := first.share second
  rwa [add_zero] at both

/-- The debt is paid back in front of a program without one. -/
theorem bind_paid (first : Owes r d f s P) (second : ∀ a u, f s = .ok (a, u) → Owes r 0 (g a) u Q) :
    Owes r d (f >>= g) s (P ∧ Q) := by
  have both := first.share second
  rwa [zero_add] at both

/-- A first part that takes nothing. -/
theorem bind_free (first : Takes r f s fun _ => 0) (second : ∀ a u, f s = .ok (a, u) → Owes r d (g a) u P) :
    Owes r d (f >>= g) s P :=
  ((of_takes first).bind second).congr ⟨And.right, fun behind => ⟨trivial, behind⟩⟩

/-- What is to hold in the middle of a program. -/
theorem bind_after (first : Owes r 0 f s P) (second : ∀ a u, f s = .ok (a, u) → Owes r d (g a) u (D a u)) :
    Owes r d (f >>= g) s (P ∧ After f s D) :=
  first.bind fun a u run => (second a u run).congr (After.iff_of_run run).symm

/-- What is to hold behind a first part that takes nothing. -/
theorem free_after (first : Takes r f s fun _ => 0) (second : ∀ a u, f s = .ok (a, u) → Owes r d (g a) u (D a u)) :
    Owes r d (f >>= g) s (After f s D) :=
  bind_free first fun a u run => (second a u run).congr (After.iff_of_run run).symm

/-- What a first part takes, the second owes. -/
theorem bind_taken {d : α → ρ} (first : Takes r f s d) (second : ∀ a u, f s = .ok (a, u) → Owes r (d a) (g a) u P) :
    Owes r 0 (f >>= g) s P := by
  intro b t run
  obtain ⟨a, u, run, run'⟩ := run_bind.1 run
  obtain ⟨le, iff⟩ := second a u run b t run'
  rw [first a u run] at le iff
  rw [add_zero]
  refine ⟨le_of_add_le_add_right le, fun same => iff.1 (by rw [same]), fun behind => ?_⟩
  exact add_right_cancel (iff.2 behind)

/-- Returning with a debt. -/
theorem pure_debt (a : α) (pos : 0 < d) : Owes r d (Pure.pure a : StateT σ (Except ε) α) s False := by
  intro b t run
  cases run
  have more : r s < r s + d := lt_add_of_pos_right _ pos
  exact ⟨more.le, iff_false_intro more.ne'⟩

/-- A program without a debt of its own leaves the one there is. -/
theorem unpaid (h : Owes r 0 f s P) (pos : 0 < d) : Owes r d f s False := by
  intro a t run
  have le := (h a t run).1
  rw [add_zero] at le
  have more : r s < r t + d := le.trans_lt (lt_add_of_pos_right _ pos)
  exact ⟨more.le, iff_false_intro more.ne'⟩

end Owes

end Base
