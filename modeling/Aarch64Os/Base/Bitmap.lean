import Mathlib

/-!
# Bits of a byte table

Bit `k` of a table of bytes is bit `k % 8` of byte `k / 8`. Setting one bit of one byte
sets one bit of the table and no other.
-/

namespace Base
set_option autoImplicit false
variable {n : ℕ}

/-- Bit `k` of a byte table; past the end it reads as clear. -/
def bit (data : Fin n → BitVec 8) (k : ℕ) : Bool := if h : k / 8 < n then (data ⟨k / 8, h⟩).getLsbD (k % 8) else false

/-- Bit `b` of byte `i`, as a bit of the table. -/
theorem bit_byte (data : Fin n → BitVec 8) (i : Fin n) {b : ℕ} (lt : b < 8) :
    bit data (8 * i + b) = (data i).getLsbD b := by
  have byte : (8 * i + b) / 8 = i := by omega
  have off : (8 * i + b) % 8 = b := by omega
  simp [bit, byte, off]

/-- Setting a bit of one byte sets that bit of the table and leaves the others. -/
theorem bit_set (data : Fin n → BitVec 8) (i : Fin n) {b : ℕ} (lt : b < 8) (k : ℕ) :
    bit (Function.update data i (data i ||| 1#8 <<< b)) k = (decide (k = 8 * i + b) || bit data k) := by
  by_cases same : k / 8 = i
  · obtain ⟨c, ltc, rfl⟩ : ∃ c, c < 8 ∧ k = 8 * i + c := ⟨k % 8, by omega, by omega⟩
    rw [bit_byte _ i ltc, bit_byte _ i ltc, Function.update_self, BitVec.getLsbD_or, Bool.or_comm]
    congr 1
    have index : (8 * (i : ℕ) + c = 8 * i + b) ↔ c = b := by omega
    simp only [BitVec.getLsbD_shiftLeft, BitVec.getLsbD_one, ltc, index]
    by_cases e : c = b
    · subst e; simp
    · simp only [e, decide_false, decide_true, Bool.true_and]
      by_cases lt' : c < b
      · simp [lt']
      · have : c - b ≠ 0 := by omega
        simp [lt', this]
  · have ne : k ≠ 8 * i + b := by omega
    simp only [bit, ne, decide_false, Bool.false_or]
    split
    case isTrue h =>
      have ne : (⟨k / 8, h⟩ : Fin n) ≠ i := fun e => same (congrArg Fin.val e)
      rw [Function.update_of_ne ne]
    case isFalse => rfl

end Base
