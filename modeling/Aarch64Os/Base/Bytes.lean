import Mathlib

/-!
# Byte tables

Reading little-endian numbers out of a table of bytes, and copying a run of bytes into it.
-/

namespace Base
set_option autoImplicit false
variable {n : ℕ}

/-- Byte `i`, or 0 past the end. -/
def byte (data : Fin n → BitVec 8) (i : ℕ) : BitVec 8 := if h : i < n then data ⟨i, h⟩ else 0

/-- The 16-bit number at `off`. -/
def le16 (data : Fin n → BitVec 8) (off : ℕ) : BitVec 16 := byte data (off + 1) ++ byte data off

/-- The 32-bit number at `off`. -/
def le32 (data : Fin n → BitVec 8) (off : ℕ) : BitVec 32 := le16 data (off + 2) ++ le16 data off

/-- Byte `i` of a number, counted from the least significant. -/
def leByte {w : ℕ} (v : BitVec w) (i : ℕ) : BitVec 8 := (v >>> (8 * i)).setWidth 8

/-- Copy `len` bytes of `src` to offset `off`. -/
def splice (data : Fin n → BitVec 8) (off : ℕ) (src : ℕ → BitVec 8) (len : ℕ) : Fin n → BitVec 8 := fun i =>
  if off ≤ i ∧ i < off + len then src (i - off) else data i

theorem splice_inside (data : Fin n → BitVec 8) {off len : ℕ} (src : ℕ → BitVec 8) {i : Fin n} (le : off ≤ i)
    (lt : (i : ℕ) < off + len) : splice data off src len i = src (i - off) := if_pos ⟨le, lt⟩

theorem splice_outside (data : Fin n → BitVec 8) {off len : ℕ} (src : ℕ → BitVec 8) {i : Fin n}
    (out : (i : ℕ) < off ∨ off + len ≤ i) : splice data off src len i = data i := by
  refine if_neg ?_
  omega

/-- Only the bytes that are copied matter. -/
theorem splice_congr (data : Fin n → BitVec 8) {off len : ℕ} {src src' : ℕ → BitVec 8}
    (same : ∀ x < len, src x = src' x) : splice data off src len = splice data off src' len := by
  funext i
  unfold splice
  split
  case isTrue range => exact same _ (by omega)
  case isFalse => rfl

/-- A byte of what was copied. -/
theorem byte_splice_inside (data : Fin n → BitVec 8) {off len i : ℕ} (src : ℕ → BitVec 8) (le : off ≤ i) (lt : i < off + len)
    (fits : off + len ≤ n) : byte (splice data off src len) i = src (i - off) := by
  have inside : i < n := by omega
  rw [byte, dif_pos inside, splice_inside data src le lt]

/-- A byte outside of it. -/
theorem byte_splice_outside (data : Fin n → BitVec 8) {off len i : ℕ} (src : ℕ → BitVec 8) (out : i < off ∨ off + len ≤ i) :
    byte (splice data off src len) i = byte data i := by
  unfold byte
  split
  · exact splice_outside data src out
  · rfl

theorem le16_congr {data data' : Fin n → BitVec 8} {off : ℕ} (same : ∀ k < 2, byte data (off + k) = byte data' (off + k)) :
    le16 data off = le16 data' off := by
  have low := same 0 (by omega)
  rw [Nat.add_zero] at low
  rw [le16, le16, low, same 1 (by omega)]

theorem le32_congr {data data' : Fin n → BitVec 8} {off : ℕ} (same : ∀ k < 4, byte data (off + k) = byte data' (off + k)) :
    le32 data off = le32 data' off := by
  have high : le16 data (off + 2) = le16 data' (off + 2) := by
    apply le16_congr
    intro k lt
    rw [Nat.add_assoc]
    exact same (2 + k) (by omega)
  rw [le32, le32, high, le16_congr fun k lt => same k (by omega)]

/-- The bytes of a number make it up again. -/
theorem le16_leByte {data : Fin n → BitVec 8} {off : ℕ} {v : BitVec 16} (bytes : ∀ k < 2, byte data (off + k) = leByte v k) :
    le16 data off = v := by
  have low := bytes 0 (by omega)
  rw [Nat.add_zero] at low
  rw [le16, low, bytes 1 (by omega)]
  apply BitVec.eq_of_getLsbD_eq
  intro i lt
  simp only [leByte, BitVec.getLsbD_append, BitVec.getLsbD_setWidth, BitVec.getLsbD_ushiftRight]
  grind

theorem le32_leByte {data : Fin n → BitVec 8} {off : ℕ} {v : BitVec 32} (bytes : ∀ k < 4, byte data (off + k) = leByte v k) :
    le32 data off = v := by
  have low := bytes 0 (by omega)
  rw [Nat.add_zero] at low
  rw [le32, le16, le16, low, bytes 1 (by omega), bytes 2 (by omega), bytes 3 (by omega)]
  apply BitVec.eq_of_getLsbD_eq
  intro i lt
  simp only [leByte, BitVec.getLsbD_append, BitVec.getLsbD_setWidth, BitVec.getLsbD_ushiftRight]
  grind

end Base
