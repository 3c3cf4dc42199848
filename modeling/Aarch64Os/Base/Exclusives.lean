import Mathlib.Logic.Function.Basic

/-!
# Exclusive accesses and events

Processors share cells. An exclusive load tags its cell for the processor, a store to the cell ends the
tag, with an event for any other processor that had it, and an exclusive store goes through only while the
tag is there. A processor that waits goes on with an event. What one processor knows of a cell that it
has tagged is kept, whatever the others do, or it has an event.
-/

namespace Base
set_option autoImplicit false

variable {P A V : Type} [DecidableEq P] [DecidableEq A]

/-- The cells, and for each processor its tag and whether it has an event. -/
structure Cells (P A V : Type) where
  value : A → V
  tag : P → Option A
  event : P → Bool

namespace Cells
variable (x : Cells P A V) (p : P) (a : A) (v : V)

def store : Cells P A V where
  value := Function.update x.value a v
  tag q := if x.tag q = some a then none else x.tag q
  event q := x.event q || (decide (q ≠ p) && decide (x.tag q = some a))

/-- What an exclusive load leaves. -/
def tagged : Cells P A V := { x with tag := Function.update x.tag p (some a) }

/-- What an exclusive store leaves that does not go through. -/
def untagged : Cells P A V := { x with tag := Function.update x.tag p none }

/-- The event register is set, -/
def signal : Cells P A V := { x with event := Function.update x.event p true }

/-- and cleared by a wait. -/
def wait : Option (Cells P A V) := if x.event p then some { x with event := Function.update x.event p false } else none

/-- What `p` has loaded is there as long as its tag is. -/
def Fresh : Prop := x.tag p = some a → x.value a = v

/-- `p` will have an event when the cell is not `v` any more. -/
def Alert : Prop := x.event p = true ∨ x.tag p = some a ∧ x.value a = v

/-- What others may do to `p`. -/
def Spares (y : Cells P A V) : Prop :=
  (y.tag p = x.tag p ∧ y.event p = x.event p ∧ ∀ a, x.tag p = some a → y.value a = x.value a) ∨ y.tag p = none ∧ y.event p = true

variable {x p a v} {y : Cells P A V} {q : P} {b : A} {w : V}

omit [DecidableEq P] [DecidableEq A] in
theorem Fresh.spared (h : x.Fresh p a v) (others : x.Spares p y) : y.Fresh p a v := by
  intro there
  rcases others with ⟨tag, -, values⟩ | ⟨gone, -⟩
  · have before : x.tag p = some a := tag.symm.trans there
    exact (values a before).trans (h before)
  · cases gone.symm.trans there

omit [DecidableEq P] [DecidableEq A] in
theorem Alert.spared (h : x.Alert p a v) (others : x.Spares p y) : y.Alert p a v := by
  rcases others with ⟨tag, event, values⟩ | ⟨-, event⟩
  · rcases h with heard | ⟨there, value⟩
    · exact .inl (event.trans heard)
    · exact .inr ⟨tag.trans there, (values a there).trans value⟩
  · exact .inl event

omit [DecidableEq A] in
/-- A load tags its cell. -/
theorem fresh_tagged : (x.tagged p a).Fresh p a (x.value a) := fun _ => rfl

omit [DecidableEq A] in
theorem alert_tagged : (x.tagged p a).Alert p a (x.value a) := .inr ⟨Function.update_self .., rfl⟩

section Others
variable (ne : q ≠ p)
include ne

/-- A store to a tagged cell ends the tag, with an event. -/
theorem store_spares : x.Spares p (x.store q b w) := by
  by_cases there : x.tag p = some b
  · refine .inr ⟨if_pos there, ?_⟩
    have other : p ≠ q := Ne.symm ne
    show (x.event p || (decide (p ≠ q) && decide (x.tag p = some b))) = true
    rw [decide_eq_true there, decide_eq_true other]
    exact Bool.or_true _
  · refine .inl ⟨if_neg there, ?_, ?_⟩
    · show (x.event p || (decide (p ≠ q) && decide (x.tag p = some b))) = x.event p
      rw [decide_eq_false there, Bool.and_false, Bool.or_false]
    · intro a tag
      have other : a ≠ b := by
        rintro rfl
        exact there tag
      exact Function.update_of_ne other ..

omit [DecidableEq A] in
/-- What a processor does to itself. -/
theorem tagged_spares : x.Spares p (x.tagged q b) := .inl ⟨Function.update_of_ne (Ne.symm ne) .., rfl, fun _ _ => rfl⟩

omit [DecidableEq A] in
theorem untagged_spares : x.Spares p (x.untagged q) := .inl ⟨Function.update_of_ne (Ne.symm ne) .., rfl, fun _ _ => rfl⟩

omit [DecidableEq A] in
theorem signal_spares : x.Spares p (x.signal q) := .inl ⟨rfl, Function.update_of_ne (Ne.symm ne) .., fun _ _ => rfl⟩

omit [DecidableEq A] in
theorem wait_spares (h : x.wait q = some y) : x.Spares p y := by
  obtain ⟨-, eq⟩ := Option.ite_none_right_eq_some.1 h
  obtain rfl := Option.some.inj eq
  exact .inl ⟨rfl, Function.update_of_ne (Ne.symm ne) .., fun _ _ => rfl⟩

end Others

omit [DecidableEq P] [DecidableEq A] in
theorem spares_self : x.Spares p x := .inl ⟨rfl, rfl, fun _ _ => rfl⟩

end Cells

end Base
