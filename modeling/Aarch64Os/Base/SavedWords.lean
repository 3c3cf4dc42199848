import Aarch64Os.Base.Aarch64

/-!
# Saving registers in memory

A run of pair stores puts the registers it names in memory one behind the other, and a run of pair
loads gets them back. Any number of registers, in any order, through any base.
-/

namespace Base.Aarch64
set_option autoImplicit false

/-- The address of word `k` from `a` on. -/
def slot (a : Word) (k : Nat) : Word := a + BitVec.ofNat 64 (8 * k)

/-- Words one behind the other, from `a` on. -/
def Mem.put (m : Mem) (a : Word) : List Word → Mem
  | [] => m
  | w :: ws => Mem.put (Function.update m a w) (a + 8) ws

/-- Registers from words one behind the other. -/
def fill (x : Fin 31 → Word) (m : Mem) (a : Word) : List (Fin 31) → Fin 31 → Word
  | [] => x
  | r :: rs => fill (Function.update x r (m a)) m (a + 8) rs

/-- Pairs of registers are stored from `base + off` on. -/
def stps (base : Reg) (off : Word) : List (Reg × Reg) → List Op
  | [] => []
  | (r, q) :: ps => .stp r q base off :: stps base (off + 16) ps

/-- Pairs of registers are loaded from `base + off` on. -/
def ldps (base : Reg) (off : Word) : List (Fin 31 × Fin 31) → List Op
  | [] => []
  | (r, q) :: ps => .ldp (.x r) (.x q) base off :: ldps base (off + 16) ps

section Slots
variable {a b : Word} {j k : Nat}

@[simp] theorem slot_zero (a : Word) : slot a 0 = a := by simp [slot]

theorem slot_add (a : Word) (j k : Nat) : slot (slot a j) k = slot a (j + k) := by
  unfold slot
  rw [BitVec.add_assoc, ← BitVec.ofNat_add, Nat.mul_add]

theorem slot_succ (a : Word) (k : Nat) : slot (a + 8) k = slot a (k + 1) := by
  rw [Nat.add_comm k 1, ← slot_add]
  rfl

theorem slot_inj (same : slot a j = slot a k) (lt : j < 2 ^ 61) (lt' : k < 2 ^ 61) : j = k := by
  have eq : BitVec.ofNat 64 (8 * j) = BitVec.ofNat 64 (8 * k) := add_left_cancel same
  have value := congrArg BitVec.toNat eq
  rw [BitVec.toNat_ofNat, BitVec.toNat_ofNat] at value
  omega

end Slots

section Put
variable {m m' : Mem} {a b : Word} {ws vs : List Word} {k : Nat}

theorem Mem.put_outside (out : ∀ k < ws.length, b ≠ slot a k) : m.put a ws b = m b := by
  induction ws generalizing m a with
  | nil => rfl
  | cons w ws ih =>
    have first : b ≠ a := by simpa using out 0 (Nat.zero_lt_succ _)
    rw [Mem.put, ih, Function.update_of_ne first]
    intro k lt
    rw [slot_succ]
    exact out (k + 1) (Nat.succ_lt_succ lt)

/-- A word that has been put. -/
theorem Mem.put_slot (few : ws.length ≤ 2 ^ 61) (lt : k < ws.length) : m.put a ws (slot a k) = ws[k] := by
  induction ws generalizing m a k with
  | nil => exact absurd lt (Nat.not_lt_zero k)
  | cons w ws ih =>
    rw [List.length_cons] at few lt
    cases k with
    | zero =>
      rw [slot_zero, Mem.put, Mem.put_outside, Function.update_self]
      · rfl
      · intro k lt same
        rw [slot_succ] at same
        have zero := slot_inj (a := a) (j := 0) (k := k + 1) (by simpa using same) (by omega) (by omega)
        omega
    | succ k =>
      rw [Mem.put, ← slot_succ, ih (by omega) (by omega)]
      rfl

theorem Mem.put_append (m : Mem) (a : Word) (ws vs : List Word) : m.put a (ws ++ vs) = (m.put a ws).put (slot a ws.length) vs := by
  induction ws generalizing m a with
  | nil =>
    rw [List.nil_append, List.length_nil, slot_zero]
    rfl
  | cons w ws ih => rw [List.cons_append, Mem.put, ih, slot_succ, Mem.put, List.length_cons]

end Put

section Fill
variable {x : Fin 31 → Word} {m : Mem} {a : Word} {rs qs : List (Fin 31)} {r : Fin 31} {k : Nat}

theorem fill_other (out : r ∉ rs) : fill x m a rs r = x r := by
  induction rs generalizing x a with
  | nil => rfl
  | cons q rs ih =>
    rw [List.mem_cons, not_or] at out
    rw [fill, ih out.2, Function.update_of_ne out.1]

theorem fill_append (x : Fin 31 → Word) (m : Mem) (a : Word) (rs qs : List (Fin 31)) :
    fill x m a (rs ++ qs) = fill (fill x m a rs) m (slot a rs.length) qs := by
  induction rs generalizing x a with
  | nil =>
    rw [List.nil_append, List.length_nil, slot_zero]
    rfl
  | cons r rs ih => rw [List.cons_append, fill, ih, slot_succ, fill, List.length_cons]

/-- A register that has been loaded. -/
theorem fill_getElem (distinct : rs.Nodup) (lt : k < rs.length) : fill x m a rs rs[k] = m (slot a k) := by
  induction rs generalizing x a k with
  | nil => exact absurd lt (Nat.not_lt_zero k)
  | cons q rs ih =>
    obtain ⟨new, distinct⟩ := List.nodup_cons.1 distinct
    cases k with
    | zero => rw [slot_zero, List.getElem_cons_zero, fill, fill_other new, Function.update_self]
    | succ k =>
      rw [← slot_succ, List.getElem_cons_succ, fill]
      exact ih distinct (Nat.lt_of_succ_lt_succ lt)

end Fill

section Access
variable (s : State)

@[simp] theorem State.get_next (r : Reg) : s.next.get r = s.get r := by
  cases r <;> rfl

@[simp] theorem State.get_store (a v : Word) (r : Reg) : (s.store a v).get r = s.get r := by
  cases r <;> rfl

/-- Accesses through a base, `sp` aligned to 16 bytes and words to 8. -/
structure State.Through (base : Reg) (off : Word) : Prop where
  stack : base = .sp → s.sp.toNat % 16 = 0
  word : (s.get base + off).toNat % 8 = 0

variable {s} {t : State} {base : Reg} {off : Word}

theorem State.Through.addr (h : s.Through base off) : s.addr base off = some (s.get base + off) := if_pos ⟨h.stack, h.word⟩

theorem State.Through.congr (h : s.Through base off) (stack : base = .sp → t.sp = s.sp) (same : t.get base = s.get base) : t.Through base off := by
  refine ⟨fun eq => ?_, ?_⟩
  · rw [stack eq]
    exact h.stack eq
  · rw [same]
    exact h.word

/-- The next pair. -/
theorem State.Through.pair (h : s.Through base off) : s.Through base (off + 16) := by
  refine ⟨h.stack, ?_⟩
  have word := h.word
  rw [← BitVec.add_assoc, BitVec.toNat_add]
  show ((s.get base + off).toNat + 16) % 2 ^ 64 % 8 = 0
  omega

end Access

/-- **Saving**: what pair stores do. -/
theorem runs_stps (ps : List (Reg × Reg)) : ∀ {s : State} {base : Reg} {off : Word}, s.Through base off →
    Op.runs (stps base off ps) s = some { s with
      mem := s.mem.put (s.get base + off) (ps.flatMap fun p => [s.get p.1, s.get p.2])
      pc := s.pc + BitVec.ofNat 64 (4 * ps.length) } := by
  induction ps with
  | nil =>
    intro s base off h
    simp [stps, Op.runs, Mem.put]
  | cons p ps ih =>
    intro s base off h
    obtain ⟨r, q⟩ := p
    let t := ((s.store (s.get base + off) (s.get r)).store (s.get base + off + 8) (s.get q)).next
    have here : Op.exec (.stp r q base off) s = some t := by
      show (s.addr base off).map _ = _
      rw [h.addr]
      rfl
    have same : ∀ r, t.get r = s.get r := fun r => by simp [t]
    have through : t.Through base (off + 16) := h.pair.congr (fun _ => rfl) (same base)
    refine Op.runs_cons here ?_
    show Op.runs (stps base (off + 16) ps) t = _
    rw [ih through]
    simp only [same, List.flatMap_cons, List.cons_append, List.nil_append, Mem.put, List.length_cons]
    have place : t.pc + BitVec.ofNat 64 (4 * ps.length) = s.pc + BitVec.ofNat 64 (4 * (ps.length + 1)) := place_succ s.pc ps.length
    have address : s.get base + off + 8 + 8 = s.get base + (off + 16) := by
      rw [BitVec.add_assoc, BitVec.add_assoc]
      rfl
    rw [place, address]
    rfl

/-- **Restoring**: what pair loads do, through a base that is none of the registers. -/
theorem runs_ldps (ps : List (Fin 31 × Fin 31)) : ∀ {s : State} {base : Reg} {off : Word}, s.Through base off →
    (∀ p ∈ ps, base ≠ .x p.1 ∧ base ≠ .x p.2) →
    Op.runs (ldps base off ps) s = some { s with
      x := fill s.x s.mem (s.get base + off) (ps.flatMap fun p => [p.1, p.2])
      pc := s.pc + BitVec.ofNat 64 (4 * ps.length) } := by
  induction ps with
  | nil =>
    intro s base off h _
    simp [ldps, Op.runs, fill]
  | cons p ps ih =>
    intro s base off h apart
    obtain ⟨r, q⟩ := p
    obtain ⟨ne, ne'⟩ := apart (r, q) List.mem_cons_self
    let t := ((s.setX r (s.mem (s.get base + off))).setX q (s.mem (s.get base + off + 8))).next
    have here : Op.exec (.ldp (.x r) (.x q) base off) s = some t := by
      show (s.addr base off).map _ = _
      rw [h.addr]
      rfl
    have same : t.get base = s.get base := by
      cases base with
      | sp => rfl
      | xzr => rfl
      | x b =>
        show Function.update (Function.update s.x r _) q _ b = s.x b
        rw [Function.update_of_ne (fun eq => ne' (congrArg Reg.x eq)), Function.update_of_ne (fun eq => ne (congrArg Reg.x eq))]
    have through : t.Through base (off + 16) := h.pair.congr (fun _ => rfl) same
    refine Op.runs_cons here ?_
    show Op.runs (ldps base (off + 16) ps) t = _
    rw [ih through fun p mem => apart p (List.mem_cons_of_mem _ mem)]
    have place : t.pc + BitVec.ofNat 64 (4 * ps.length) = s.pc + BitVec.ofNat 64 (4 * (ps.length + 1)) := place_succ s.pc ps.length
    have address : s.get base + (off + 16) = s.get base + off + 8 + 8 := by
      rw [BitVec.add_assoc, BitVec.add_assoc]
      rfl
    rw [same, place, address]
    rfl

end Base.Aarch64
