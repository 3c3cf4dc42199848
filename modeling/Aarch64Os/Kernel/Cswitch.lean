import Aarch64Os.Kernel.Vectortable

/-!
# Switching between threads (`kernel/cswitch.S`)

`cswitch` puts the registers that a call must keep, and some more, in one `struct context` and
takes them from another. A new process has a context of its own making, which leads to `forkret`.
-/

namespace Aarch64Os.Kernel
set_option autoImplicit false
open Base.Aarch64

/-- The registers in a `struct context`. -/
def kept : List (Fin 31) := [0, 1, 2, 3, 4, 5, 6, 7, 8, 16, 17, 18, 19, 20, 21, 22, 23, 24, 25, 26, 27, 28, 29, 30]

abbrev Kept := {n : Fin 31 // n ∈ kept}

/-- `struct context`; its `lr` is register 30. -/
structure Context where
  sp : Word
  x : Kept → Word

/-- The word of a register in it. -/
def Kept.place (n : Kept) : Nat := if n.1 < 9 then n.1 + 1 else n.1 - 6

/-- `lr`. -/
def lr : Kept := ⟨30, by decide⟩

/-- The context at an address. -/
def contextAt (m : Mem) (a : Word) : Context where
  sp := m a
  x n := m (slot a n.place)

/-- What a context holds, word by word. -/
def contextWords (sp : Word) (x : Fin 31 → Word) : List Word := sp :: kept.map x

/-- The registers of a core that are kept. -/
def contextOf (r : Regs) : Context where
  sp := r.sp_el1
  x n := r.x n

/-- `cswitch`, up to its `ret`. -/
def cswitchOps : List Op :=
  [.mov (.x 9) (.x 0),
   .mov (.x 10) .sp,
   .stp (.x 10) (.x 0) (.x 9) (16 * 0),
   .stp (.x 1) (.x 2) (.x 9) (16 * 1),
   .stp (.x 3) (.x 4) (.x 9) (16 * 2),
   .stp (.x 5) (.x 6) (.x 9) (16 * 3),
   .stp (.x 7) (.x 8) (.x 9) (16 * 4),
   .stp (.x 16) (.x 17) (.x 9) (16 * 5),
   .stp (.x 18) (.x 19) (.x 9) (16 * 6),
   .stp (.x 20) (.x 21) (.x 9) (16 * 7),
   .stp (.x 22) (.x 23) (.x 9) (16 * 8),
   .stp (.x 24) (.x 25) (.x 9) (16 * 9),
   .stp (.x 26) (.x 27) (.x 9) (16 * 10),
   .stp (.x 28) (.x 29) (.x 9) (16 * 11),
   .str (.x 30) (.x 9) (16 * 12),
   .mov (.x 9) (.x 1),
   .ldp (.x 10) (.x 0) (.x 9) (16 * 0),
   .ldp (.x 1) (.x 2) (.x 9) (16 * 1),
   .ldp (.x 3) (.x 4) (.x 9) (16 * 2),
   .ldp (.x 5) (.x 6) (.x 9) (16 * 3),
   .ldp (.x 7) (.x 8) (.x 9) (16 * 4),
   .ldp (.x 16) (.x 17) (.x 9) (16 * 5),
   .ldp (.x 18) (.x 19) (.x 9) (16 * 6),
   .ldp (.x 20) (.x 21) (.x 9) (16 * 7),
   .ldp (.x 22) (.x 23) (.x 9) (16 * 8),
   .ldp (.x 24) (.x 25) (.x 9) (16 * 9),
   .ldp (.x 26) (.x 27) (.x 9) (16 * 10),
   .ldp (.x 28) (.x 29) (.x 9) (16 * 11),
   .ldr (.x 30) (.x 9) (16 * 12),
   .mov .sp (.x 10)]

def cswitch : List Instr := cswitchOps.map .op ++ [.ret]

/-- `forkret`, with the places of `schedule_tail` and `trapret`. -/
def forkret (schedule_tail trapret : Word) : List Instr := [.bl schedule_tail, .b trapret]

/-- The pairs of registers behind the first word, which is for `sp`. -/
def contextPairs : List (Fin 31 × Fin 31) :=
  [(10, 0), (1, 2), (3, 4), (5, 6), (7, 8), (16, 17), (18, 19), (20, 21), (22, 23), (24, 25), (26, 27), (28, 29)]

theorem cswitchOps_eq : cswitchOps = .mov (.x 9) (.x 0) :: .mov (.x 10) .sp ::
    (stps (.x 9) 0 (contextPairs.map fun p => (.x p.1, .x p.2)) ++ .str (.x 30) (.x 9) 192 :: .mov (.x 9) (.x 1) ::
      (ldps (.x 9) 0 contextPairs ++ [.ldr (.x 30) (.x 9) 192, .mov .sp (.x 10)])) := rfl

/-- What `cswitch` leaves: the context at `x0` has the registers that were, and the registers are those of the
context at `x1`. -/
structure Switched (s t : State) : Prop where
  mem : t.mem = s.mem.put (s.x 0) (contextWords s.sp_el1 s.x)
  regs : contextOf t.toRegs = contextAt t.mem (s.x 1)
  pc : t.pc = (contextAt t.mem (s.x 1)).x lr
  sys : t.sys = s.sys
  pstate : t.pstate = s.pstate

section Contexts
variable {s t : State} {m m' : Mem} {a : Word} {x : Fin 31 → Word}

theorem contextWords_length (sp : Word) (x : Fin 31 → Word) : (contextWords sp x).length = 25 := rfl

theorem Kept.place_lt (n : Kept) : n.place < 25 := by
  have all : ∀ n : Fin 31, n ∈ kept → (if n < 9 then n.val + 1 else n - 6) < 25 := by decide
  exact all n.1 n.2

theorem Kept.at_place (n : Kept) : (10 :: kept)[n.place]? = some n.1 := by
  have all : ∀ n : Fin 31, n ∈ kept → (10 :: kept)[if n < 9 then n.val + 1 else n - 6]? = some n := by decide
  exact all n.1 n.2

/-- A context that has been put in memory is there. -/
theorem contextAt_put (m : Mem) (a sp : Word) (x : Fin 31 → Word) : contextAt (m.put a (contextWords sp x)) a = ⟨sp, fun n => x n⟩ := by
  have few : (contextWords sp x).length ≤ 2 ^ 61 := by
    rw [contextWords_length]
    decide
  have first := Mem.put_slot (m := m) (a := a) (k := 0) few (Nat.zero_lt_succ _)
  rw [slot_zero] at first
  have word : ∀ n : Kept, m.put a (contextWords sp x) (slot a n.place) = x n := by
    intro n
    have lt : n.place < (contextWords sp x).length := by
      rw [contextWords_length]
      exact n.place_lt
    rw [Mem.put_slot few lt]
    have listed := n.at_place
    apply Option.some.inj
    rw [← List.getElem?_eq_getElem lt]
    cases eq : n.place with
    | zero =>
      rw [eq] at listed
      have ten : (10 : Fin 31) = n.1 := Option.some.inj listed
      have ne : (10 : Fin 31) ∉ kept := by decide
      exact absurd (ten ▸ n.2) ne
    | succ k =>
      rw [eq, List.getElem?_cons_succ] at listed
      rw [contextWords, List.getElem?_cons_succ, List.getElem?_map, listed]
      rfl
  unfold contextAt
  congr
  · funext n
    exact word n

/-- A context is what its words are. -/
theorem contextAt_congr (same : ∀ k < 25, m' (slot a k) = m (slot a k)) : contextAt m' a = contextAt m a := by
  have first := same 0 (by decide)
  rw [slot_zero] at first
  unfold contextAt
  congr
  · funext n
    exact same _ n.place_lt

/-- Straight through it. -/
theorem runs_cswitchOps (mode : s.mode = EL1h) (old : (s.x 0).toNat % 8 = 0) (new : (s.x 1).toNat % 8 = 0) :
    ∃ t, Op.runs cswitchOps s = some t ∧ t.mem = s.mem.put (s.x 0) (contextWords s.sp_el1 s.x) ∧
      contextOf t.toRegs = contextAt t.mem (s.x 1) ∧ t.sys = s.sys ∧ t.pstate = s.pstate ∧ t.pc = s.pc + 120 := by
  have apart : ∀ p ∈ contextPairs, Reg.x 9 ≠ .x p.1 ∧ Reg.x 9 ≠ .x p.2 := by
    have none : (9 : Fin 31) ∉ contextPairs.flatMap fun p => [p.1, p.2] := by decide
    intro p mem
    constructor
    · intro eq
      exact none (List.mem_flatMap.2 ⟨p, mem, by simp [← Reg.x.inj eq]⟩)
    · intro eq
      exact none (List.mem_flatMap.2 ⟨p, mem, by simp [← Reg.x.inj eq]⟩)
  have through : ∀ {u : State} {off : Word} {a : Word}, u.x 9 = a → a.toNat % 8 = 0 → off.toNat % 8 = 0 → u.Through (.x 9) off := by
    intro u off a nine aligned word
    constructor
    · intro eq
      cases eq
    · show (u.x 9 + off).toNat % 8 = 0
      rw [nine, BitVec.toNat_add]
      omega
  rw [cswitchOps_eq]
  -- the registers go to the old context
  let u : State := ((s.setX 9 (s.x 0)).next.setX 10 s.sp_el1).next
  let v : State := { u with mem := s.mem.put (s.x 0) (contextPairs.flatMap fun p => [u.x p.1, u.x p.2]), pc := u.pc + 48 }
  have stored : Op.runs (stps (.x 9) 0 (contextPairs.map fun p => (.x p.1, .x p.2))) u = some v := by
    have at_u : u.Through (.x 9) 0 := through rfl old (by decide)
    rw [runs_stps _ at_u, show u.get (.x 9) + (0 : Word) = s.x 0 from BitVec.add_zero _]
    rfl
  let m : Mem := s.mem.put (s.x 0) (contextWords s.sp_el1 s.x)
  let w : State := { v with mem := m, pc := v.pc + 4 }
  have last : Op.exec (.str (.x 30) (.x 9) 192) v = some w := by
    have at_v : v.Through (.x 9) 192 := through rfl old (by decide)
    have words : contextWords s.sp_el1 s.x = (contextPairs.flatMap fun p => [u.x p.1, u.x p.2]) ++ [s.x 30] := rfl
    have behind : s.x 0 + 192 = slot (s.x 0) (contextPairs.flatMap fun p => [u.x p.1, u.x p.2]).length := rfl
    have words : m = Function.update v.mem (s.x 0 + 192) (s.x 30) := by
      show s.mem.put (s.x 0) (contextWords s.sp_el1 s.x) = _
      rw [words, Mem.put_append, ← behind]
      rfl
    show (v.addr (.x 9) 192).map _ = some { v with mem := m, pc := v.pc + 4 }
    rw [at_v.addr, words]
    rfl
  -- and come from the new one
  let p : State := (w.setX 9 (s.x 1)).next
  let x := fill p.x m (s.x 1) (10 :: kept)
  let q : State := { p with x := fill p.x m (s.x 1) (contextPairs.flatMap fun p => [p.1, p.2]), pc := p.pc + 48 }
  have loaded : Op.runs (ldps (.x 9) 0 contextPairs) p = some q := by
    have at_p : p.Through (.x 9) 0 := through rfl new (by decide)
    rw [runs_ldps _ at_p apart, show p.get (.x 9) + (0 : Word) = s.x 1 from BitVec.add_zero _]
    rfl
  let r : State := { q with x := x, pc := q.pc + 4 }
  have link : Op.exec (.ldr (.x 30) (.x 9) 192) q = some r := by
    have base : q.get (.x 9) = s.x 1 := fill_other (by decide)
    have at_q : q.Through (.x 9) 192 := through base new (by decide)
    have regs : x = Function.update q.x 30 (m (s.x 1 + 192)) := by
      have all : (10 :: kept : List (Fin 31)) = (contextPairs.flatMap fun p => [p.1, p.2]) ++ [30] := rfl
      have behind : s.x 1 + 192 = slot (s.x 1) (contextPairs.flatMap fun p => [p.1, p.2]).length := rfl
      show fill p.x m (s.x 1) (10 :: kept) = _
      rw [all, fill_append, ← behind]
      rfl
    show (q.addr (.x 9) 192).map _ = some { q with x := x, pc := q.pc + 4 }
    rw [at_q.addr, regs, base]
    rfl
  let t : State := { r with sp_el1 := x 10, pc := r.pc + 4 }
  have stack : Op.exec (.mov .sp (.x 10)) r = some t := by
    have mode_r : r.mode = EL1h := mode
    rw [Op.exec, State.set_sp mode_r]
    rfl
  refine ⟨t, ?_, rfl, ?_, rfl, rfl, ?_⟩
  · have sp : Op.exec (.mov (.x 10) .sp) (s.setX 9 (s.x 0)).next = some u := by
      have mode_s : (s.setX 9 (s.x 0)).next.mode = EL1h := mode
      rw [Op.exec, State.get_sp mode_s]
      rfl
    have tail : Op.runs [.ldr (.x 30) (.x 9) 192, .mov .sp (.x 10)] q = some t := Op.runs_cons link (Op.runs_cons stack rfl)
    have second := Op.runs_cons (o := .mov (.x 9) (.x 1)) (s := w) (t := p) rfl (Op.runs_append loaded tail)
    have first := Op.runs_append stored (Op.runs_cons last second)
    exact Op.runs_cons rfl (Op.runs_cons sp first)
  · have word : ∀ k (lt : k < (10 :: kept).length), x (10 :: kept)[k] = m (slot (s.x 1) k) := fun k lt => fill_getElem (by decide) lt
    have regs : (contextOf t.toRegs).x = (contextAt t.mem (s.x 1)).x := by
      funext n
      obtain ⟨lt, same⟩ := List.getElem?_eq_some_iff.1 n.at_place
      have there := word n.place lt
      rwa [same] at there
    have sp : (contextOf t.toRegs).sp = (contextAt t.mem (s.x 1)).sp := by
      have zero := word 0 (Nat.zero_lt_succ _)
      rwa [slot_zero] at zero
    exact congr (congrArg Context.mk sp) regs
  · show s.pc + 4 + 4 + 48 + 4 + 4 + 48 + 4 + 4 = _
    simp only [BitVec.add_assoc]
    rfl

/-- **A switch** runs 31 instructions. -/
theorem runs_cswitch {code : Code} (text : code.At s.pc cswitch) (mode : s.mode = EL1h) (old : (s.x 0).toNat % 8 = 0)
    (new : (s.x 1).toNat % 8 = 0) : ∃ t, run code 31 s = some t ∧ Switched s t := by
  obtain ⟨u, ran, mem, regs, sys, pstate, pc⟩ := runs_cswitchOps mode old new
  have last : code u.pc = some .ret := by
    rw [pc]
    exact text.right.head
  have back : step code u = some { u with pc := u.x 30 } := by
    rw [step, last]
    rfl
  have link : u.x 30 = (contextAt u.mem (s.x 1)).x lr := congrArg (fun r : Context => r.x lr) regs
  exact ⟨_, run_add (n := 1) (run_ops text.left ran) (run_succ back rfl), mem, regs, link, sys, pstate⟩

end Contexts

end Aarch64Os.Kernel
