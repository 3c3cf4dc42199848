import Aarch64Os.Kernel.KernelStacksSteps

/-!
# Runs of all cores

Whatever happens between, a thread finds the registers that it was interrupted with.
-/

namespace Aarch64Os.Kernel.KernelStacks
set_option autoImplicit false
open Base Base.Aarch64

section System
variable {C T : Type} [DecidableEq C] [DecidableEq T]

end System

section Boot

/-- Places for the handlers in C. -/
def handlers : Handlers := ⟨0x8000, 0x8004, 0x8008, 0x800c, 0x8010, 0x8014⟩

/-- The files of assembly. -/
def text : List (Nat × List Instr) :=
  vectorPieces 0x1000 handlers ++ [(0x4000, Kernel.cswitch), (0x5000, Kernel.forkret 0x8018 (trapret 0x1000))]

/-- One thread. -/
def image : Image Unit where
  code := Code.load text
  vectortable := 0x1000
  handlers := handlers
  cswitch := 0x4000
  forkret := 0x5000
  schedule_tail := 0x8018
  context _ := 0x10000

theorem image_linked : image.Linked := by
  have sizes : text.map (fun p => (p.1, p.2.length)) =
      [(0x1000, 2), (0x1080, 2), (0x1100, 2), (0x1180, 2), (0x1200, 1), (0x1280, 1), (0x1300, 2), (0x1380, 2), (0x1400, 1), (0x1480, 1),
        (0x1500, 2), (0x1580, 2), (0x1600, 2), (0x1680, 2), (0x1700, 2), (0x1780, 2), (0x1788, 225), (0x4000, 31), (0x5000, 2)] := rfl
  have apart : text.Pairwise fun p q => p.1 + 4 * p.2.length ≤ q.1 := by
    have pairs : (text.map fun p => (p.1, p.2.length)).Pairwise fun p q => p.1 + 4 * p.2 ≤ q.1 := by
      rw [sizes]
      decide
    exact List.pairwise_map.1 pairs
  have small : ∀ p ∈ text, p.1 + 4 * p.2.length ≤ 2 ^ 64 := by
    have ends : ∀ q ∈ text.map fun p => (p.1, p.2.length), q.1 + 4 * q.2 ≤ 0x10000 := by
      rw [sizes]
      decide
    intro p mem
    have le := ends _ (List.mem_map_of_mem mem)
    exact le_trans le (by norm_num)
  have switch : (0x4000, Kernel.cswitch) ∈ text := List.mem_append_right _ List.mem_cons_self
  have fork : (0x5000, Kernel.forkret 0x8018 (trapret 0x1000)) ∈ text := List.mem_append_right _ (List.mem_cons_of_mem _ List.mem_cons_self)
  constructor
  · exact Vectortable.load apart small fun p mem => List.mem_append_left _ mem
  · exact Code.load_at apart small switch
  · exact Code.load_at apart small fork
  · intro t
    show (0x10000#64).toNat % 8 = 0
    decide
  · intro t u ne
    exact absurd rfl ne

/-- One core, in the kernel with interrupts on. -/
def boot : Sys Unit Unit where
  regs _ := ⟨fun n => BitVec.ofNat 64 n, 0x20000, fun r => if r = .vbar_el1 then 0x1000 else 0, 5, 0x9000⟩
  mem _ := 0
  current _ := ()
  threads _ := some ⟨0x20000, [], none⟩

theorem boot_boots : Boots image boot := by
  refine ⟨fun c => ⟨rfl, rfl, _, rfl, rfl⟩, ?_, fun _ _ _ => rfl, ?_, ?_, ?_⟩
  · intro t th own
    obtain rfl := Option.some.inj own
    exact ⟨rfl, rfl⟩
  · intro t th own
    obtain rfl := Option.some.inj own
    show (0x20000#64).toNat % 16 = 0
    decide
  · intro t u th th' ne
    exact absurd rfl ne
  · intro t u th own i lt j low high eq
    obtain rfl := Option.some.inj own
    have value := congrArg BitVec.toNat eq
    change ((0x10000#64) + BitVec.ofNat 64 (8 * i)).toNat = ((0x20000#64) - BitVec.ofNat 64 (8 * j)).toNat at value
    rw [BitVec.toNat_add, BitVec.toNat_sub, BitVec.toNat_ofNat, BitVec.toNat_ofNat, BitVec.toNat_ofNat, BitVec.toNat_ofNat] at value
    omega

theorem boot_irq : Allowed image boot (.irq ()) := by
  refine ⟨rfl, ?_⟩
  intro th own
  obtain rfl := Option.some.inj own
  decide

end Boot

section System
variable {C T : Type} [DecidableEq C] [DecidableEq T]

/-- How many frames a thread has. -/
def Sys.frames (s : Sys C T) (t : T) : Nat := ((s.threads t).map fun th => th.frames.length).getD 0

/-- Steps before thread `t` goes back from its frame number `n`. -/
def Before (K : Image T) (t : T) (n : Nat) (s : Sys C T) (a : Act C T) : Prop :=
  Allowed K s a ∧
    match a with
    | .ret c => s.current c = t → n < s.frames t
    | .freeproc _ u => u ≠ t
    | _ => True

/-- A frame of an interrupt in the kernel, as number `n`. -/
structure Sys.Below (s : Sys C T) (t : T) (top : Word) (f : Frame) (n : Nat) : Prop where
  kind : f.kind = ⟨false, true⟩
  frame : ∃ th newer older, s.threads t = some th ∧ th.top = top ∧ th.frames = newer ++ f :: older ∧ older.length + 1 = n

section Below
variable {K : Image T} {s s' : Sys C T} {c : C} {t : T} {top : Word} {f : Frame} {n : Nat} {a : Act C T}

omit [DecidableEq C] in
/-- What a step of a core does to its own thread. -/
theorem Sys.Below.modify (h : s.Below t top f n) {g : Thread → Thread}
    (same : ∀ th newer older, s.current c = t → s.threads t = some th → th.frames = newer ++ f :: older → older.length + 1 = n →
      (g th).top = th.top ∧ ∃ newer older, (g th).frames = newer ++ f :: older ∧ older.length + 1 = n)
    {r : C → Regs} {m : Mem} : (({ s with regs := r, mem := m } : Sys C T).modify (s.current c) g).Below t top f n := by
  obtain ⟨kind, th, newer, older, there, eq, frames, count⟩ := h
  refine ⟨kind, ?_⟩
  by_cases here : s.current c = t
  · obtain ⟨top', newer', older', frames', count'⟩ := same th newer older here there frames count
    refine ⟨g th, newer', older', ?_, top'.trans eq, frames', count'⟩
    show Function.update s.threads (s.current c) ((s.threads (s.current c)).map g) t = _
    rw [here, Function.update_self, there]
    rfl
  · refine ⟨th, newer, older, ?_, eq, frames, count⟩
    show Function.update s.threads (s.current c) ((s.threads (s.current c)).map g) t = _
    rw [Function.update_of_ne (Ne.symm here), there]

theorem Sys.Below.enter (h : s.Below t top f n) {k : Trap} {u : State} {elr : Word} (stepped : enter K s c k u elr = some s') : s'.Below t top f n := by
  obtain ⟨v, -, rfl⟩ := Option.map_eq_some_iff.1 stepped
  apply h.modify
  intro th newer older _ _ frames count
  refine ⟨rfl, ⟨k, (th.top - v.sp_el1).toNat / 8, k.frame u elr⟩ :: newer, older, ?_, count⟩
  show _ :: th.frames = _
  rw [frames]
  rfl

/-- The frame stays, whatever happens, until it is gone back from. -/
theorem Sys.Below.step (h : s.Below t top f n) (ok : Before K t n s a) (stepped : step K s a = some s') : s'.Below t top f n := by
  obtain ⟨ok, before⟩ := ok
  cases a with
  | work c r m =>
    cases stepped
    apply h.modify
    intro th newer older _ _ frames count
    have kernel : f.kind.user = false := by rw [h.kind]
    have kept : f.reread m th.top = f := if_neg (by rw [kernel]; exact Bool.false_ne_true)
    refine ⟨rfl, newer.map (Frame.reread m th.top), older.map (Frame.reread m th.top), ?_, ?_⟩
    · show th.frames.map (Frame.reread m th.top) = _
      rw [frames, List.map_append, List.map_cons, kept]
    · rw [List.length_map, count]
  | irq c => exact h.enter stepped
  | sync c esr elr => exact h.enter stepped
  | data_abort c tf p handler =>
    cases stepped
    apply h.modify
    intro th newer older here there frames count
    obtain ⟨th', g, gs, own, frames', kind, -⟩ := ok
    rw [here] at own
    cases own.symm.trans there
    cases newer with
    | nil =>
      have eq := (List.cons.inj (frames.symm.trans frames')).1
      rw [← eq, h.kind] at kind
      cases kind
    | cons g' newer =>
      let faulted : Frame := { g' with tf := { g'.tf with x := Function.update g'.tf.x 0 p, elr := handler } }
      refine ⟨rfl, faulted :: newer, older, ?_, count⟩
      show th.frames.modifyHead _ = _
      rw [frames]
      rfl
  | ret c =>
    obtain ⟨v, -, rfl⟩ := Option.map_eq_some_iff.1 stepped
    apply h.modify
    intro th newer older here there frames count
    have more := before here
    rw [Sys.frames, there] at more
    cases newer with
    | nil =>
      have length : th.frames.length = n := by
        rw [frames]
        exact count
      exact absurd more (by show ¬n < th.frames.length; omega)
    | cons g newer =>
      refine ⟨rfl, newer, older, ?_, count⟩
      show th.frames.tail = _
      rw [frames]
      rfl
  | cswitch c u =>
    obtain ⟨v, -, rfl⟩ := Option.map_eq_some_iff.1 stepped
    have parked : (({ s with regs := Function.update s.regs c v.toRegs, mem := v.mem } : Sys C T).modify (s.current c)
        fun th => { th with context := some (contextOf (s.regs c)) }).Below t top f n := by
      apply h.modify
      intro th newer older _ _ frames count
      exact ⟨rfl, newer, older, frames, count⟩
    obtain ⟨kind, th, newer, older, there, eq, frames, count⟩ := parked
    refine ⟨kind, ?_⟩
    by_cases here : u = t
    · subst here
      refine ⟨{ th with context := none }, newer, older, ?_, eq, frames, count⟩
      exact (Function.update_self ..).trans (congrArg (Option.map fun th : Thread => { th with context := none }) there)
    · refine ⟨th, newer, older, ?_, eq, frames, count⟩
      show Function.update _ u _ t = _
      rw [Function.update_of_ne (Ne.symm here)]
      exact there
  | forkret c =>
    obtain ⟨v, -, rfl⟩ := Option.map_eq_some_iff.1 stepped
    exact ⟨h.kind, h.frame⟩
  | newproc c u kstack p b =>
    obtain ⟨kind, th, newer, older, there, eq, frames, count⟩ := h
    obtain ⟨tc, -, rfl⟩ := Option.map_eq_some_iff.1 stepped
    have ne : t ≠ u := by
      intro eq
      subst eq
      rw [ok.1] at there
      cases there
    refine ⟨kind, th, newer, older, ?_, eq, frames, count⟩
    show Function.update s.threads u _ t = _
    rw [Function.update_of_ne ne, there]
  | freeproc c u =>
    obtain ⟨kind, th, newer, older, there, eq, frames, count⟩ := h
    cases stepped
    refine ⟨kind, th, newer, older, ?_, eq, frames, count⟩
    show Function.update s.threads u none t = _
    rw [Function.update_of_ne (Ne.symm before), there]

end Below

/-- A handler may return as soon as it is called. -/
theorem Inv.returns {K : Image T} {s : Sys C T} {c : C} {th : Thread} {f : Frame} {fs : List Frame} (h : Inv K s)
    (own : s.threads (s.current c) = some th) (frames : th.frames = f :: fs) (mode : (s.regs c).mode = EL1h) (masked : (s.regs c).masked = true)
    (k : Trap) : ∃ r s', Allowed K s (.work c r s.mem) ∧ KernelStacks.step K s (.work c r s.mem) = some s' ∧ s'.current = s.current ∧
      s'.frames (s.current c) = s.frames (s.current c) ∧ Allowed K s' (.ret c) := by
  let r : Regs := { s.regs c with pc := k.back K.vectortable, sp_el1 := word th.top f.depth }
  have mode' : r.mode = (s.regs c).mode := Regs.mode_congr rfl
  have stacked := (h.held _ th own).stacked
  rw [frames] at stacked
  obtain ⟨⟨-, even, page, -⟩, -⟩ := stacked
  have works : Allowed K s (.work c r s.mem) := by
    refine ⟨⟨fun _ _ _ _ _ _ => rfl, fun _ _ _ _ => rfl⟩, mode', rfl, fun user => ?_, ?_, ?_⟩
    · rw [mode', mode] at user
      exact absurd user (by decide)
    · intro _ th' own'
      cases own.symm.trans own'
      refine ⟨f.depth, rfl, even, ?_, page⟩
      rw [Thread.depth, frames]
      exact le_rfl
    · intro th' own' f mem user
      have held := h.held _ th' own'
      rw [held.frames f mem, held.stacked.mode mem, Trap.mode, if_pos user]
  let s' := ({ s with regs := Function.update s.regs c r } : Sys C T).modify (s.current c) (Thread.reread s.mem)
  have there : s'.threads (s.current c) = some (th.reread s.mem) := by
    show Function.update s.threads (s.current c) ((s.threads (s.current c)).map _) _ = _
    rw [Function.update_self, own]
    rfl
  have regs : s'.regs c = r := Function.update_self ..
  refine ⟨r, s', works, rfl, rfl, ?_, ?_⟩
  · rw [Sys.frames, Sys.frames, there, own]
    exact List.length_map ..
  · refine ⟨?_, ?_, ⟨k, ?_⟩, th.reread s.mem, f.reread s.mem th.top, fs.map (Frame.reread s.mem th.top), there, ?_, ?_⟩
    · rw [regs, mode', mode]
    · rw [regs]
      exact masked
    · rw [regs]
    · show th.frames.map _ = _
      rw [frames, List.map_cons]
    · rw [regs]
      show word th.top f.depth = word th.top (f.reread s.mem th.top).depth
      unfold Frame.reread
      split <;> rfl

end System

end Aarch64Os.Kernel.KernelStacks
