import Mathlib

/-!
# Memory as a byte function

A memory gives every address a byte. Storing a run of bytes changes their addresses and no
others, and what a memory holds at an address is read off byte by byte. Numbers are runs of
bytes, the least significant first.
-/

namespace Base
set_option autoImplicit false

/-- A byte for every address. -/
abbrev ByteMem := Nat → BitVec 8

variable {m m' : ByteMem} {a x : Nat} {bytes : List (BitVec 8)}

/-- Put a run of bytes at `a`. -/
def ByteMem.store (m : ByteMem) (a : Nat) (bytes : List (BitVec 8)) : ByteMem := fun x =>
  if a ≤ x then (bytes[x - a]?).getD (m x) else m x

/-- The run of bytes is at `a`. -/
def ByteMem.Holds (m : ByteMem) (a : Nat) (bytes : List (BitVec 8)) : Prop := ∀ k (lt : k < bytes.length), m (a + k) = bytes[k]

/-- The number that a run of bytes makes up. -/
def leNat : List (BitVec 8) → Nat
  | [] => 0
  | b :: bytes => b.toNat + 256 * leNat bytes

/-- The number of `len` bytes at an offset. -/
def leField (bytes : List (BitVec 8)) (off len : Nat) : Nat := leNat ((bytes.drop off).take len)

/-- It is as large as the run is long. -/
theorem leNat_lt (bytes : List (BitVec 8)) : leNat bytes < 256 ^ bytes.length := by
  induction bytes with
  | nil => exact Nat.one_pos
  | cons b bytes ih =>
    have low := b.isLt
    rw [leNat, List.length_cons, Nat.pow_succ]
    omega

theorem leField_lt (bytes : List (BitVec 8)) (off len : Nat) : leField bytes off len < 256 ^ len := by
  apply (leNat_lt _).trans_le
  exact Nat.pow_le_pow_right (by decide) (List.length_take_le len _)

/-- The low `len` bytes of a number. -/
def leBytes : Nat → Nat → List (BitVec 8)
  | 0, _ => []
  | len + 1, v => BitVec.ofNat 8 v :: leBytes len (v / 256)

@[simp] theorem leBytes_length (len : Nat) : ∀ v, (leBytes len v).length = len := by
  induction len with
  | zero => exact fun _ => rfl
  | succ len ih => exact fun v => congrArg (· + 1) (ih (v / 256))

/-- A number is made up by its bytes. -/
theorem leNat_leBytes (len : Nat) : ∀ {v}, v < 256 ^ len → leNat (leBytes len v) = v := by
  induction len with
  | zero =>
    intro v lt
    exact (Nat.lt_one_iff.1 lt).symm
  | succ len ih =>
    intro v lt
    have high : v / 256 < 256 ^ len := Nat.div_lt_of_lt_mul (by rwa [Nat.pow_succ, Nat.mul_comm] at lt)
    rw [leBytes, leNat, ih high, BitVec.toNat_ofNat]
    exact Nat.mod_add_div v 256

/-- A byte of the run. -/
theorem ByteMem.store_inside (m : ByteMem) (a : Nat) {k : Nat} (lt : k < bytes.length) : m.store a bytes (a + k) = bytes[k] := by
  rw [store, if_pos (Nat.le_add_right ..), Nat.add_sub_cancel_left, List.getElem?_eq_getElem lt, Option.getD_some]

/-- A byte outside of it. -/
theorem ByteMem.store_outside (m : ByteMem) (out : x < a ∨ a + bytes.length ≤ x) : m.store a bytes x = m x := by
  unfold store
  split
  · rw [List.getElem?_eq_none (by omega), Option.getD_none]
  · rfl

theorem ByteMem.store_holds (m : ByteMem) (a : Nat) (bytes : List (BitVec 8)) : (m.store a bytes).Holds a bytes :=
  fun _ lt => m.store_inside a lt

/-- Only the addresses of the run matter. -/
theorem ByteMem.Holds.congr (h : m.Holds a bytes) (same : ∀ x, a ≤ x → x < a + bytes.length → m' x = m x) : m'.Holds a bytes := by
  intro k lt
  rw [same (a + k) (by omega) (by omega)]
  exact h k lt

/-- One more byte. -/
theorem ByteMem.Holds.snoc {b : BitVec 8} (h : m.Holds a bytes) (last : m (a + bytes.length) = b) : m.Holds a (bytes ++ [b]) := by
  intro k lt
  rw [List.length_append, List.length_singleton] at lt
  rcases Nat.lt_or_ge k bytes.length with inside | here
  · rw [List.getElem_append_left inside]
    exact h k inside
  · obtain rfl : k = bytes.length := by omega
    rw [List.getElem_append_right here]
    simpa using last

end Base
