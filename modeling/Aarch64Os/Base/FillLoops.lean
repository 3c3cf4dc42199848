import Aarch64Os.Base.SavedWords

/-!
# Loops that fill memory

A loop over the entries of a table, with its test at the end, and one over the words of an area, with
its test at the start. Each writes words one behind the other and keeps all other registers.
-/

namespace Base.Aarch64
set_option autoImplicit false

/-- `n` words, each greater than the one before by `stride`. -/
def strides (stride : Word) : Nat → Word → List Word
  | 0, _ => []
  | n + 1, w => w :: strides stride n (w + stride)

/-- The entries of a table from `idx` to `last` are filled. -/
def fillLoop (base idx entry last : Fin 31) (stride head : Word) : List Instr :=
  [.op (.strLsl3 (.x entry) (.x base) (.x idx)),
   .op (.addImm (.x idx) (.x idx) 1),
   .op (.addImm (.x entry) (.x entry) stride),
   .op (.cmp (.x idx) (.x last)),
   .bls head]

/-- As many words as `count` has in its low half are cleared, from `ptr` on. -/
def clearLoop (ptr count : Fin 31) (head : Word) : List Instr :=
  [.cbz32 (.x count) (head + 16),
   .op (.strPost .xzr (.x ptr) 8),
   .op (.subImm32 (.x count) (.x count) 1),
   .b head]

section Flags
variable {s : State} {a b : Word}

/-- A comparison tells which one is greater. -/
theorem State.ls_setFlags (s : State) (a b : Word) : (s.setFlags (State.flags a b)).ls = decide (a.toNat ≤ b.toNat) := by
  have bit : ∀ i < 4, (s.setFlags (State.flags a b)).pstate.getLsbD (28 + i) = (State.flags a b).getLsbD i := by
    intro i lt
    show (s.pstate.extractLsb' 32 32 ++ State.flags a b ++ s.pstate.extractLsb' 0 28).getLsbD (28 + i) = _
    rw [BitVec.getLsbD_append, if_neg (by omega), BitVec.getLsbD_append, if_pos (by omega), Nat.add_sub_cancel_left]
  have carry : (State.flags a b).getLsbD 1 = decide (b.toNat ≤ a.toNat) := by
    unfold State.flags
    rw [BitVec.getLsbD_append, if_neg (by decide), BitVec.getLsbD_append, if_pos (by decide), BitVec.getLsbD_ofBool]
    exact Bool.true_and _
  have zero : (State.flags a b).getLsbD 2 = decide (a = b) := by
    unfold State.flags
    rw [BitVec.getLsbD_append, if_neg (by decide), BitVec.getLsbD_append, if_neg (by decide), BitVec.getLsbD_append, if_pos (by decide),
      BitVec.getLsbD_ofBool]
    exact Bool.true_and _
  unfold State.ls
  rw [bit 1 (by decide), bit 2 (by decide), carry, zero]
  by_cases eq : a = b
  · subst eq
    simp
  · have ne : a.toNat ≠ b.toNat := fun same => eq (BitVec.eq_of_toNat_eq same)
    rw [decide_eq_false eq, Bool.or_false, ← decide_not, decide_eq_decide]
    omega

theorem State.setFlags_mode (s : State) (nzcv : BitVec 4) : (s.setFlags nzcv).mode = s.mode := by
  apply BitVec.eq_of_getLsbD_eq
  intro i lt
  show ((s.pstate.extractLsb' 32 32 ++ nzcv ++ s.pstate.extractLsb' 0 28).extractLsb' 0 4).getLsbD i = (s.pstate.extractLsb' 0 4).getLsbD i
  rw [BitVec.getLsbD_extractLsb', BitVec.getLsbD_extractLsb', Nat.zero_add, BitVec.getLsbD_append, if_pos (by omega), BitVec.getLsbD_extractLsb',
    Nat.zero_add, decide_eq_true (show i < 28 by omega), Bool.true_and]

theorem index_shift (i : Nat) : BitVec.ofNat 64 i <<< 3 = BitVec.ofNat 64 (8 * i) := by
  apply BitVec.eq_of_toNat_eq
  rw [BitVec.toNat_shiftLeft, BitVec.toNat_ofNat, BitVec.toNat_ofNat, Nat.shiftLeft_eq]
  omega

theorem slot_aligned {i : Nat} (aligned : a.toNat % 8 = 0) : (slot a i).toNat % 8 = 0 := by
  unfold slot
  rw [BitVec.toNat_add, BitVec.toNat_ofNat]
  omega

end Flags

/-- An entry of a table is written. -/
theorem exec_strLsl3 {s : State} (entry base : Fin 31) {idx : Fin 31} {i : Nat} (index : s.x idx = BitVec.ofNat 64 i) (aligned : (s.x base).toNat % 8 = 0) :
    Op.exec (.strLsl3 (.x entry) (.x base) (.x idx)) s =
      some { s with mem := Function.update s.mem (slot (s.x base) i) (s.x entry), pc := s.pc + 4 } := by
  have address : s.x base + (s.x idx <<< 3) = slot (s.x base) i := by
    rw [index, index_shift]
    rfl
  have through : s.addr (.x base) (s.x idx <<< 3) = some (slot (s.x base) i) := by
    have word : (s.get (.x base) + (s.x idx <<< 3)).toNat % 8 = 0 := by
      show (s.x base + (s.x idx <<< 3)).toNat % 8 = 0
      rw [address]
      exact slot_aligned aligned
    rw [← address]
    refine if_pos ⟨fun eq => ?_, word⟩
    cases eq
  show (s.addr (.x base) (s.x idx <<< 3)).map _ = _
  rw [through]
  rfl

/-- What a loop keeps, but for the registers that it counts with. -/
structure Kept (except : List (Fin 31)) (s t : State) : Prop where
  regs : ∀ n, n ∉ except → t.x n = s.x n
  mode : t.mode = s.mode
  sys : t.sys = s.sys
  sp : t.sp_el1 = s.sp_el1

theorem Kept.trans {except : List (Fin 31)} {s t u : State} (h : Kept except s t) (h' : Kept except t u) : Kept except s u where
  regs n out := (h'.regs n out).trans (h.regs n out)
  mode := h'.mode.trans h.mode
  sys := h'.sys.trans h.sys
  sp := h'.sp.trans h.sp

section Loops
variable {code : Code} {base idx entry last : Fin 31} {stride : Word}

/-- One round. -/
theorem fillLoop_round {s : State} {i e : Nat} (text : code.At s.pc (fillLoop base idx entry last stride s.pc))
    (distinct : [base, idx, entry, last].Nodup) (index : s.x idx = BitVec.ofNat 64 i) (limit : s.x last = BitVec.ofNat 64 e) (le : i ≤ e) (lt : e < 2 ^ 60)
    (aligned : (s.x base).toNat % 8 = 0) :
    ∃ t, run code 5 s = some t ∧ Kept [idx, entry] s t ∧ t.mem = Function.update s.mem (slot (s.x base) i) (s.x entry) ∧
      t.x idx = BitVec.ofNat 64 (i + 1) ∧ t.x entry = s.x entry + stride ∧ t.pc = if i + 1 ≤ e then s.pc else s.pc + 20 := by
  simp only [List.nodup_cons, List.mem_cons, List.not_mem_nil, or_false, not_or] at distinct
  obtain ⟨⟨base_idx, base_entry, base_last⟩, ⟨idx_entry, idx_last⟩, entry_last, -⟩ := distinct
  let ops : List Op := [.strLsl3 (.x entry) (.x base) (.x idx), .addImm (.x idx) (.x idx) 1, .addImm (.x entry) (.x entry) stride, .cmp (.x idx) (.x last)]
  let m := Function.update s.mem (slot (s.x base) i) (s.x entry)
  let x := Function.update (Function.update s.x idx (s.x idx + 1)) entry (s.x entry + stride)
  let u : State := { s with mem := m, x := x, pc := s.pc + 4 + 4 + 4 }
  let v : State := (u.setFlags (State.flags (x idx) (x last))).next
  have stored : Op.exec (.strLsl3 (.x entry) (.x base) (.x idx)) s = some { s with mem := m, pc := s.pc + 4 } := exec_strLsl3 entry base index aligned
  have other : Function.update s.x idx (s.x idx + 1) entry = s.x entry := Function.update_of_ne (Ne.symm idx_entry) ..
  have second : Op.exec (.addImm (.x entry) (.x entry) stride) { s with mem := m, x := Function.update s.x idx (s.x idx + 1), pc := s.pc + 4 + 4 } = some u := by
    show some ((State.setX _ entry (Function.update s.x idx (s.x idx + 1) entry + stride)).next) = _
    rw [other]
    rfl
  have ran : Op.runs ops s = some v := Op.runs_cons stored (Op.runs_cons rfl (Op.runs_cons second (Op.runs_cons rfl rfl)))
  have here : code.At s.pc (ops.map .op) := text.left
  have four : run code 4 s = some v := run_ops here ran
  have fetch : code (s.pc + 4 + 4 + 4 + 4) = some (.bls s.pc) := text.tail.tail.tail.tail.head
  let w : State := if v.ls then { v with pc := s.pc } else v.next
  have branch : step code v = some w := by
    show (code (s.pc + 4 + 4 + 4 + 4)).bind _ = _
    rw [fetch]
    rfl
  have next : x idx = BitVec.ofNat 64 (i + 1) := by
    show Function.update (Function.update s.x idx (s.x idx + 1)) entry (s.x entry + stride) idx = _
    rw [Function.update_of_ne idx_entry, Function.update_self, index, BitVec.ofNat_add]
    rfl
  have same : ∀ n, n ∉ [idx, entry] → x n = s.x n := by
    intro n out
    rw [List.mem_cons, List.mem_singleton, not_or] at out
    show Function.update (Function.update s.x idx (s.x idx + 1)) entry (s.x entry + stride) n = _
    rw [Function.update_of_ne out.2, Function.update_of_ne out.1]
  have outside : last ∉ [idx, entry] := by simp [Ne.symm idx_last, Ne.symm entry_last]
  have bound : x last = BitVec.ofNat 64 e := (same last outside).trans limit
  have ls : v.ls = decide (i + 1 ≤ e) := by
    have value := State.ls_setFlags u (x idx) (x last)
    rw [next, bound, BitVec.toNat_ofNat, BitVec.toNat_ofNat, Nat.mod_eq_of_lt (by omega), Nat.mod_eq_of_lt (by omega)] at value
    rw [← value]
    show (u.setFlags (State.flags (x idx) (x last))).ls = _
    rw [next, bound]
  have mode : v.mode = s.mode := State.setFlags_mode u _
  refine ⟨w, run_add (n := 1) four (run_succ branch rfl), ?_⟩
  by_cases more : i + 1 ≤ e
  · have taken : w = { v with pc := s.pc } := if_pos (ls.trans (decide_eq_true more))
    rw [taken, if_pos more]
    exact ⟨⟨same, mode, rfl, rfl⟩, rfl, next, Function.update_self .., rfl⟩
  · have no : ¬v.ls = true := by
      rw [ls, decide_eq_false more]
      exact Bool.false_ne_true
    have ends : w = v.next := if_neg no
    rw [ends, if_neg more]
    have place : v.next.pc = s.pc + 20 := by
      show s.pc + 4 + 4 + 4 + 4 + 4 = s.pc + 20
      simp only [BitVec.add_assoc]
      rfl
    have mode' : v.next.mode = s.mode := v.next_mode.trans mode
    exact ⟨⟨same, mode', rfl, rfl⟩, rfl, next, Function.update_self .., place⟩

/-- **Filling a table**, from one entry to another: one is written at least. -/
theorem run_fillLoop (n : Nat) : ∀ {s : State} {i : Nat}, code.At s.pc (fillLoop base idx entry last stride s.pc) → [base, idx, entry, last].Nodup →
    s.x idx = BitVec.ofNat 64 i → s.x last = BitVec.ofNat 64 (i + n) → i + n < 2 ^ 60 → (s.x base).toNat % 8 = 0 →
    ∃ t, run code (5 * (n + 1)) s = some t ∧ Kept [idx, entry] s t ∧ t.mem = s.mem.put (slot (s.x base) i) (strides stride (n + 1) (s.x entry)) ∧
      t.pc = s.pc + 20 := by
  induction n with
  | zero =>
    intro s i text distinct index limit lt aligned
    obtain ⟨t, ran, kept, mem, -, -, pc⟩ := fillLoop_round text distinct index limit le_rfl lt aligned
    rw [if_neg (by omega)] at pc
    exact ⟨t, ran, kept, mem, pc⟩
  | succ n ih =>
    intro s i text distinct index limit lt aligned
    obtain ⟨t, ran, kept, mem, index', entry', pc⟩ := fillLoop_round text distinct index limit (by omega) lt aligned
    rw [if_pos (by omega)] at pc
    have outside : base ∉ [idx, entry] ∧ last ∉ [idx, entry] := by
      simp only [List.nodup_cons, List.mem_cons, List.not_mem_nil, or_false, not_or] at distinct
      obtain ⟨⟨base_idx, base_entry, -⟩, ⟨-, idx_last⟩, entry_last, -⟩ := distinct
      simp [base_idx, base_entry, Ne.symm idx_last, Ne.symm entry_last]
    have base' := kept.regs base outside.1
    have limit' : t.x last = BitVec.ofNat 64 (i + 1 + n) := by
      rw [kept.regs last outside.2, limit]
      congr 1
      omega
    obtain ⟨u, ran', kept', mem', pc'⟩ := ih (s := t) (i := i + 1) (by rw [pc]; exact text) distinct index' limit' (by omega) (by rw [base']; exact aligned)
    have both : 5 * (n + 1 + 1) = 5 + 5 * (n + 1) := by omega
    refine ⟨u, both ▸ run_add ran ran', kept.trans kept', ?_, by rw [pc', pc]⟩
    have behind : slot (s.x base) i + 8 = slot (s.x base) (i + 1) := slot_add (s.x base) i 1
    rw [mem', base', entry', mem, ← behind]
    rfl

/-- **Clearing an area**: as many words as are counted, which may be none. -/
theorem run_clearLoop {ptr count : Fin 31} (n : Nat) : ∀ {s : State}, code.At s.pc (clearLoop ptr count s.pc) → ptr ≠ count →
    (s.x count).setWidth 32 = BitVec.ofNat 32 n → n < 2 ^ 32 → (s.x ptr).toNat % 8 = 0 →
    ∃ t, run code (4 * n + 1) s = some t ∧ Kept [ptr, count] s t ∧ t.mem = s.mem.put (s.x ptr) (List.replicate n 0) ∧ t.pc = s.pc + 16 := by
  induction n with
  | zero =>
    intro s text ne counted lt aligned
    let t : State := { s with pc := s.pc + 16 }
    have done : step code s = some t := by
      rw [step, text.head]
      show some (if (s.x count).setWidth 32 = 0#32 then t else s.next) = _
      rw [if_pos counted]
    exact ⟨t, run_succ done rfl, ⟨fun _ _ => rfl, Regs.mode_congr rfl, rfl, rfl⟩, rfl, rfl⟩
  | succ n ih =>
    intro s text ne counted lt aligned
    have more : ¬(s.x count).setWidth 32 = 0#32 := by
      intro zero
      have value := congrArg BitVec.toNat (counted.symm.trans zero)
      rw [BitVec.toNat_ofNat, BitVec.toNat_ofNat] at value
      omega
    have first : step code s = some s.next := by
      rw [step, text.head]
      show some (if (s.x count).setWidth 32 = 0#32 then { s with pc := s.pc + 16 } else s.next) = _
      rw [if_neg more]
    let x := Function.update s.x ptr (s.x ptr + 8)
    let u : State := { s with mem := Function.update s.mem (s.x ptr) 0, x := x, pc := s.pc + 4 + 4 }
    have stored : step code s.next = some u := by
      have address : s.next.addr (.x ptr) 0 = some (s.x ptr) := by
        have plain : s.next.get (.x ptr) + 0 = s.x ptr := BitVec.add_zero _
        have word : (s.next.get (.x ptr) + 0).toNat % 8 = 0 := by
          rw [plain]
          exact aligned
        rw [← plain]
        refine if_pos ⟨fun eq => ?_, word⟩
        cases eq
      rw [step, show s.next.pc = s.pc + 4 from rfl, text.tail.head]
      show (s.next.addr (.x ptr) 0).map _ = _
      rw [address]
      rfl
    let v : State := { u with x := Function.update x count (((s.x count).setWidth 32 - 1#32).setWidth 64), pc := s.pc + 4 + 4 + 4 }
    have counts : step code u = some v := by
      have other : x count = s.x count := Function.update_of_ne (Ne.symm ne) ..
      rw [step, show u.pc = s.pc + 4 + 4 from rfl, text.tail.tail.head]
      show some (u.setX count (((x count).setWidth 32 - 1#32).setWidth 64)).next = _
      rw [other]
      rfl
    let w : State := { v with pc := s.pc }
    have again : step code v = some w := by
      rw [step, show v.pc = s.pc + 4 + 4 + 4 from rfl, text.tail.tail.tail.head]
      rfl
    have left : (w.x count).setWidth 32 = BitVec.ofNat 32 n := by
      have value : w.x count = ((s.x count).setWidth 32 - 1#32).setWidth 64 := Function.update_self ..
      rw [value, counted, BitVec.ofNat_add, show (BitVec.ofNat 32 1 : BitVec 32) = 1#32 from rfl, BitVec.add_sub_cancel]
      apply BitVec.eq_of_toNat_eq
      rw [BitVec.toNat_setWidth, BitVec.toNat_setWidth, BitVec.toNat_ofNat]
      omega
    have next : w.x ptr = s.x ptr + 8 := by
      show Function.update x count _ ptr = _
      rw [Function.update_of_ne ne]
      exact Function.update_self ..
    have aligned' : (w.x ptr).toNat % 8 = 0 := by
      rw [next, BitVec.toNat_add]
      show ((s.x ptr).toNat + 8) % 2 ^ 64 % 8 = 0
      omega
    have kept : Kept [ptr, count] s w := by
      refine ⟨fun r out => ?_, Regs.mode_congr rfl, rfl, rfl⟩
      rw [List.mem_cons, List.mem_singleton, not_or] at out
      show Function.update (Function.update s.x ptr _) count _ r = _
      rw [Function.update_of_ne out.2, Function.update_of_ne out.1]
    obtain ⟨t, ran, kept', mem, pc⟩ := ih (s := w) text ne left (by omega) aligned'
    have round : run code 4 s = some w := run_succ first (run_succ stored (run_succ counts (run_succ again rfl)))
    have both : 4 * (n + 1) + 1 = 4 + (4 * n + 1) := by omega
    refine ⟨t, both ▸ run_add round ran, kept.trans kept', ?_, pc⟩
    rw [mem, next]
    rfl

end Loops

end Base.Aarch64
