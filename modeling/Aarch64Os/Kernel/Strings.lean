import Mathlib

/-!
# Strings and blocks of bytes (`kernel/string.c`, `usr/ulib.c`)

`memmove` goes up when the source is above the destination, and down otherwise, so that no byte is
overwritten before it has been copied. The kernel and the user library have the same function, each its own.
-/

namespace Aarch64Os
set_option autoImplicit false

namespace Kernel

/-- A character of a string: any byte but NUL. -/
abbrev Chr : Type := { c : BitVec 8 // c ≠ 0 }

/-- The bytes of a string. -/
def bytesOf (str : List Chr) : List (BitVec 8) := str.map Subtype.val

end Kernel

/-- A byte for every address. -/
abbrev Bytes := BitVec 64 → BitVec 8

/-- `while(n-- > 0) *d++ = *s++`. -/
def copyUp : Nat → BitVec 64 → BitVec 64 → Bytes → Bytes
  | 0, _, _, mem => mem
  | n + 1, d, s, mem => copyUp n (d + 1) (s + 1) (Function.update mem d (mem s))

/-- `while(n-- > 0) *--d = *--s`. -/
def copyDown : Nat → BitVec 64 → BitVec 64 → Bytes → Bytes
  | 0, _, _, mem => mem
  | n + 1, d, s, mem => copyDown n (d - 1) (s - 1) (Function.update mem (d - 1) (mem (s - 1)))

/-- The body of both `memmove`s: what it returns, and the memory. -/
def moveBytes (dst src n : BitVec 64) (mem : Bytes) : BitVec 64 × Bytes :=
  if dst < src then (dst, copyUp n.toNat dst src mem) else (dst, copyDown n.toNat (dst + n) (src + n) mem)

/-- `memmove` of the kernel. -/
def Kernel.memmove (dst src n : BitVec 64) (mem : Bytes) : BitVec 64 × Bytes := moveBytes dst src n mem

/-- `memcpy` of the kernel. -/
def Kernel.memcpy (dst src n : BitVec 64) (mem : Bytes) : BitVec 64 × Bytes := Kernel.memmove dst src n mem

/-- `memmove` of the user library. -/
def Usr.memmove (dst src n : BitVec 64) (mem : Bytes) : BitVec 64 × Bytes := moveBytes dst src n mem

/-- `memcpy` of the user library. -/
def Usr.memcpy (dst src n : BitVec 64) (mem : Bytes) : BitVec 64 × Bytes := Usr.memmove dst src n mem

/-- The byte at offset `i` of a pointer. -/
abbrev at_ (p : BitVec 64) (i : Nat) : BitVec 64 := p + BitVec.ofNat 64 i

/-- The `n` bytes at `d` are what `mem` has at `s`, and the others are those of `mem`. -/
structure Moved (d s : BitVec 64) (n : Nat) (mem mem' : Bytes) : Prop where
  copied : ∀ i < n, mem' (at_ d i) = mem (at_ s i)
  others : ∀ a, (∀ i < n, a ≠ at_ d i) → mem' a = mem a

section Loops
variable {d s : BitVec 64} {n : Nat}

theorem at_zero (p : BitVec 64) : at_ p 0 = p := BitVec.add_zero p

theorem at_succ (p : BitVec 64) (i : Nat) : at_ (p + 1) i = at_ p (i + 1) := by
  rw [at_, at_, BitVec.ofNat_add, BitVec.add_comm (BitVec.ofNat 64 i), ← BitVec.add_assoc]
  rfl

/-- Offsets that stay below the size of the address space are told apart. -/
theorem at_injective {i j : Nat} (p : BitVec 64) (lt : i < 2 ^ 64) (lt' : j < 2 ^ 64) (same : at_ p i = at_ p j) : i = j := by
  have offsets := congrArg BitVec.toNat ((BitVec.add_right_inj p).1 same)
  rwa [BitVec.toNat_ofNat, BitVec.toNat_ofNat, Nat.mod_eq_of_lt lt, Nat.mod_eq_of_lt lt'] at offsets

/-- Going up is right when no byte is behind the place where it is to go. -/
theorem copyUp_moves (n : Nat) : ∀ {d s : BitVec 64} {mem : Bytes}, n ≤ 2 ^ 64 →
    (∀ i j, i < j → j < n → at_ d i ≠ at_ s j) → Moved d s n mem (copyUp n d s mem) := by
  induction n with
  | zero => exact fun _ _ => ⟨fun i lt => absurd lt i.not_lt_zero, fun _ _ => rfl⟩
  | succ n ih =>
    intro d s mem small later
    have rest : Moved (d + 1) (s + 1) n (Function.update mem d (mem s)) (copyUp n (d + 1) (s + 1) (Function.update mem d (mem s))) := by
      apply ih (by omega)
      intro i j lt below
      rw [at_succ, at_succ]
      exact later (i + 1) (j + 1) (by omega) (by omega)
    constructor
    · intro i lt
      cases i with
      | zero =>
        have first : copyUp n (d + 1) (s + 1) (Function.update mem d (mem s)) d = Function.update mem d (mem s) d := by
          apply rest.others
          intro i below same
          rw [at_succ] at same
          have zero := at_injective d (by omega) (by omega) ((at_zero d).trans same)
          omega
        rw [at_zero, at_zero, copyUp, first, Function.update_self]
      | succ i =>
        have copied := rest.copied i (by omega)
        rw [at_succ, at_succ] at copied
        have kept := later 0 (i + 1) (by omega) lt
        rw [at_zero] at kept
        rw [copyUp, copied, Function.update_of_ne kept.symm]
    · intro a out
      have ne := out 0 (by omega)
      rw [at_zero] at ne
      rw [copyUp, rest.others a, Function.update_of_ne ne]
      intro i lt
      rw [at_succ]
      exact out (i + 1) (by omega)

theorem at_pred (p : BitVec 64) (n : Nat) : at_ p (n + 1) - 1 = at_ p n := by
  rw [at_, at_, BitVec.ofNat_add, ← BitVec.add_assoc]
  exact BitVec.add_sub_cancel ..

/-- Going down is right when no byte is before the place where it is to go. -/
theorem copyDown_moves (n : Nat) : ∀ {d s : BitVec 64} {mem : Bytes}, n ≤ 2 ^ 64 →
    (∀ i j, j < i → i < n → at_ d i ≠ at_ s j) → Moved d s n mem (copyDown n (at_ d n) (at_ s n) mem) := by
  induction n with
  | zero => exact fun _ _ => ⟨fun i lt => absurd lt i.not_lt_zero, fun _ _ => rfl⟩
  | succ n ih =>
    intro d s mem small earlier
    have rest := @ih d s (Function.update mem (at_ d n) (mem (at_ s n))) (by omega) fun i j lt below => earlier i j lt (by omega)
    rw [copyDown, at_pred, at_pred]
    constructor
    · intro i lt
      rcases Nat.lt_succ_iff_lt_or_eq.1 lt with below | rfl
      · rw [rest.copied i below, Function.update_of_ne (earlier n i below (by omega)).symm]
      · rw [rest.others, Function.update_self]
        intro j below same
        have equal := at_injective d (by omega) (by omega) same
        omega
    · intro a out
      rw [rest.others a fun i lt => out i (by omega), Function.update_of_ne (out n (by omega))]

end Loops

section Blocks
variable {dst src n : BitVec 64}

/-- The number of a byte of a range that does not wrap. -/
theorem at_toNat {p : BitVec 64} {i : Nat} (fits : p.toNat + n.toNat ≤ 2 ^ 64) (lt : i < n.toNat) : (at_ p i).toNat = p.toNat + i := by
  have small := n.isLt
  rw [BitVec.toNat_add, BitVec.toNat_ofNat, Nat.mod_eq_of_lt (a := i) (by omega), Nat.mod_eq_of_lt (by omega)]

theorem moveBytes_moves (mem : Bytes) (dst_fits : dst.toNat + n.toNat ≤ 2 ^ 64) (src_fits : src.toNat + n.toNat ≤ 2 ^ 64) :
    (moveBytes dst src n mem).1 = dst ∧ Moved dst src n.toNat mem (moveBytes dst src n mem).2 := by
  have small := n.isLt
  have last : BitVec.ofNat 64 n.toNat = n := BitVec.eq_of_toNat_eq (by rw [BitVec.toNat_ofNat, Nat.mod_eq_of_lt small])
  unfold moveBytes
  split
  · rename_i above
    refine ⟨rfl, copyUp_moves n.toNat small.le ?_⟩
    intro i j lt below same
    have places := congrArg BitVec.toNat same
    rw [at_toNat dst_fits (by omega), at_toNat src_fits below] at places
    have order : dst.toNat < src.toNat := above
    omega
  · rename_i above
    refine ⟨rfl, ?_⟩
    have down := @copyDown_moves n.toNat dst src mem small.le
    rw [at_, at_, last] at down
    apply down
    intro i j lt below same
    have places := congrArg BitVec.toNat same
    rw [at_toNat dst_fits below, at_toNat src_fits (by omega)] at places
    have order : ¬ dst.toNat < src.toNat := above
    omega

/-- **Moving bytes.** However the ranges overlap, the destination gets what the source had, and nothing else
changes, with each of the four functions. -/
theorem bytes_moved (dst src n : BitVec 64) (mem : Bytes) (dst_fits : dst.toNat + n.toNat ≤ 2 ^ 64)
    (src_fits : src.toNat + n.toNat ≤ 2 ^ 64) :
    ∀ move ∈ [Kernel.memmove, Kernel.memcpy, Usr.memmove, Usr.memcpy],
      (move dst src n mem).1 = dst ∧ Moved dst src n.toNat mem (move dst src n mem).2 := by
  have moves := moveBytes_moves mem dst_fits src_fits
  intro move mem
  simp only [List.mem_cons, List.not_mem_nil, or_false] at mem
  rcases mem with rfl | rfl | rfl | rfl
  · exact moves
  · exact moves
  · exact moves
  · exact moves

/-- Three bytes move up by one, the last of them to the end of the address space. -/
theorem bytes_moved_overlap : (Usr.memcpy (-3) (-4) 3 fun a => a.setWidth 8).1 = -3 ∧
    Moved (-3) (-4) 3 (fun a => a.setWidth 8) (Usr.memcpy (-3) (-4) 3 fun a => a.setWidth 8).2 :=
  bytes_moved (-3) (-4) 3 (fun a => a.setWidth 8) (by decide) (by decide) Usr.memcpy (by simp)

end Blocks

end Aarch64Os
