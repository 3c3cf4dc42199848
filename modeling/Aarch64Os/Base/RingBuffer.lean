import Mathlib.Data.Nat.ModEq
import Mathlib.Logic.Function.Basic

/-!
# Rings with wrapping counters

A ring of `n` slots is addressed by a `w`-bit counter that runs on and wraps, modulo `n`.
`Window` says what stands in the slots from a counter on. As long as no more than `n`
entries stand there, they are in different slots, also across the wrap, because `n`
divides `2 ^ w`. What the entries are is a parameter.
-/

namespace Base
set_option autoImplicit false

variable {α : Type} {n w : Nat} [NeZero n]

/-- The slot of a counter. -/
def ringSlot (n : Nat) [NeZero n] {w : Nat} (i : BitVec w) : Fin n := Fin.ofNat n i.toNat

/-- The entries `xs`, oldest first, stand in the slots from counter `start` on. -/
def Window (ring : Fin n → α) (start : BitVec w) (xs : List α) : Prop :=
  ∀ i (h : i < xs.length), ring (ringSlot n (start + BitVec.ofNat w i)) = xs[i]

theorem ringSlot_add (dvd : n ∣ 2 ^ w) (start : BitVec w) (i : Nat) :
    (ringSlot n (start + BitVec.ofNat w i)).val = (start.toNat + i) % n := by
  simp [ringSlot, Nat.mod_mod_of_dvd _ dvd]

/-- Entries at different distances of less than `n` are in different slots. -/
theorem ringSlot_inj (dvd : n ∣ 2 ^ w) (start : BitVec w) {i j : Nat} (hi : i < n) (hj : j < n)
    (eq : ringSlot n (start + BitVec.ofNat w i) = ringSlot n (start + BitVec.ofNat w j)) : i = j := by
  have vals := congrArg Fin.val eq
  rw [ringSlot_add dvd, ringSlot_add dvd] at vals
  have congruent : i ≡ j [MOD n] := Nat.ModEq.add_left_cancel' start.toNat vals
  exact congruent.eq_of_lt_of_lt hi hj

/-- A counter that is `k + 1` ahead is `k` ahead of the next one. -/
theorem counter_succ (start : BitVec w) (k : Nat) :
    start + BitVec.ofNat w (k + 1) = start + 1 + BitVec.ofNat w k := by
  rw [BitVec.add_assoc, BitVec.ofNat_add, BitVec.add_comm 1]
  rfl

/-- One more entry moves the counter behind the entries by one. -/
theorem counter_push (start : BitVec w) (k : Nat) :
    start + BitVec.ofNat w k + 1 = start + BitVec.ofNat w (k + 1) := by
  rw [BitVec.ofNat_add, BitVec.add_assoc]
  rfl

namespace Window
variable {ring : Fin n → α} {start : BitVec w} {xs : List α} {x : α}

theorem nil : Window ring start [] := fun i h => absurd h (Nat.not_lt_zero i)

/-- A new entry goes behind the others when there is room. -/
theorem push (h : Window ring start xs) (dvd : n ∣ 2 ^ w) (room : xs.length < n) :
    Window (Function.update ring (ringSlot n (start + BitVec.ofNat w xs.length)) x) start (xs ++ [x]) := by
  intro i hi
  rw [List.length_append, List.length_singleton] at hi
  by_cases last : i = xs.length
  · subst last
    simp
  · have old : i < xs.length := by omega
    rw [List.getElem_append_left old, Function.update_of_ne]
    · exact h i old
    · exact fun eq => last (ringSlot_inj dvd start (by omega) room eq)

/-- The oldest entry stands in the slot of the counter. -/
theorem head (h : Window ring start (x :: xs)) : ring (ringSlot n start) = x := by
  simpa using h 0 (Nat.zero_lt_succ _)

/-- The others are what is left when the counter goes on. -/
theorem tail (h : Window ring start (x :: xs)) : Window ring (start + 1) xs := by
  intro i hi
  have next := h (i + 1) (Nat.succ_lt_succ hi)
  rw [← counter_succ]
  exact next

end Window

end Base
