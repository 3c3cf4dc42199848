import Mathlib.Data.Nat.Digits.Defs
import Mathlib.Data.Nat.Digits.Lemmas
import Mathlib.Tactic.Ring

/-!
# Numerals in a base

The digits of a number as they are written, the most significant first and without leading zeros. A
number below the base is its own numeral; any other is that of its quotient with the remainder behind it.
-/

namespace Base
set_option autoImplicit false

variable {b n k d : ℕ}

/-- The digits of a number, as written. -/
def numeral (b n : ℕ) : List ℕ := if n = 0 then [0] else (b.digits n).reverse

theorem numeral_ne_nil (b n : ℕ) : numeral b n ≠ [] := by
  unfold numeral
  split
  · exact List.cons_ne_nil 0 []
  · rename_i pos
    simpa using Nat.digits_ne_nil_iff_ne_zero.2 pos

/-- The last digit, and those before it. -/
theorem numeral_step (more : 1 < b) (n : ℕ) : numeral b n = if n / b = 0 then [n % b] else numeral b (n / b) ++ [n % b] := by
  rcases Nat.eq_zero_or_pos n with rfl | pos
  · simp [numeral]
  · rw [numeral, if_neg pos.ne', Nat.digits_def' more pos, List.reverse_cons]
    split
    · rename_i low
      rw [low, Nat.digits_zero]
      rfl
    · rename_i high
      rw [numeral, if_neg high]

theorem lt_of_mem_numeral (more : 1 < b) (mem : d ∈ numeral b n) : d < b := by
  unfold numeral at mem
  split at mem
  · rw [List.mem_singleton.1 mem]
    omega
  · exact Nat.digits_lt_base more (List.mem_reverse.1 mem)

/-- A numeral makes up its number. -/
theorem ofDigits_numeral (b n : ℕ) : Nat.ofDigits b (numeral b n).reverse = n := by
  unfold numeral
  split
  · rename_i zero
    rw [zero]
    simp
  · rw [List.reverse_reverse, Nat.ofDigits_digits]

/-- So do its digits from the left on. -/
theorem foldl_numeral (b n : ℕ) : (numeral b n).foldl (fun v d => v * b + d) 0 = n := by
  have right := ofDigits_numeral b n
  rw [Nat.ofDigits_eq_foldr] at right
  rw [← List.reverse_reverse (numeral b n), List.foldl_reverse]
  conv_rhs => rw [← right]
  congr 1
  funext d v
  rw [Nat.mul_comm, Nat.add_comm]
  rfl

/-- It does not begin with a zero, but that of zero does. -/
theorem numeral_head (pos : n ≠ 0) : (numeral b n).head? ≠ some 0 := by
  rw [numeral, if_neg pos, List.head?_reverse, List.getLast?_eq_some_getLast (Nat.digits_ne_nil_iff_ne_zero.2 pos)]
  intro zero
  exact Nat.getLast_digit_ne_zero b pos (Option.some.inj zero)

theorem length_numeral_le (more : 1 < b) (some : 0 < k) (lt : n < b ^ k) : (numeral b n).length ≤ k := by
  unfold numeral
  split
  · exact some
  · rw [List.length_reverse]
    exact (Nat.digits_length_le_iff more n).2 lt

end Base
