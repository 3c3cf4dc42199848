import Aarch64Os.Kernel.KernelStacks

/-!
# What each step keeps of the threads

An exception puts its frame below all others, `restorereg` takes the latest one, and `cswitch` writes to the
context of the thread that goes. So frames and contexts stay in memory as they were made.
-/

namespace Aarch64Os.Kernel.KernelStacks
set_option autoImplicit false
open Base Base.Aarch64

section System
variable {C T : Type} [DecidableEq C] [DecidableEq T]

section Steps
variable {K : Image T} {s s' : Sys C T} {c : C} {t : T} {th th' : Thread} {m : Mem} {r : Regs} {f : Thread → Thread} {d : Nat}

omit [DecidableEq C] [DecidableEq T] in
theorem Boots.inv (h : Boots K s) : Inv K s := by
  constructor
  · intro c
    obtain ⟨mode, vbar, th, own, sp⟩ := h.core c
    obtain ⟨none, running⟩ := h.threads _ th own
    have room : th.Room (s.regs c).sp_el1 0 := by
      constructor
      · rw [sp, word_zero]
      · rfl
      · rw [Thread.depth, none]
        exact le_rfl
      · decide
    exact ⟨th, own, running, vbar, 0, room, .inl mode⟩
  · exact h.alone
  · intro t th own
    obtain ⟨none, running⟩ := h.threads t th own
    constructor
    · rw [none]
      trivial
    · intro f mem
      rw [none] at mem
      exact absurd mem List.not_mem_nil
    · intro r eq
      rw [running] at eq
      cases eq
  · exact h.placed

omit [DecidableEq C] [DecidableEq T] in
/-- A thread is held by the words of its frames and of its context. -/
theorem Held.congr (h : Held K s.mem t th) (frames : ∀ f ∈ th.frames, trapframeAt m (word th.top f.depth) = trapframeAt s.mem (word th.top f.depth))
    (context : th.context ≠ none → contextAt m (K.context t) = contextAt s.mem (K.context t)) : Held K m t th := by
  constructor
  · exact h.stacked
  · intro f mem
    rw [frames f mem, h.frames f mem]
  · intro r eq
    have parked : th.context ≠ none := by
      rw [eq]
      exact Option.some_ne_none r
    rw [context parked]
    exact h.context r eq

omit [DecidableEq C] in
/-- What is written deep in a stack touches no frame above, -/
theorem Inv.frame_kept (h : Inv K s) (own : s.threads t = some th) (same : ∀ a, (∀ i, d < i → i ≤ 512 → a ≠ word th.top i) → m a = s.mem a)
    {u : T} (there : s.threads u = some th') {g : Frame} (mem : g ∈ th'.frames) (above : u = t → g.depth ≤ d) :
    trapframeAt m (word th'.top g.depth) = trapframeAt s.mem (word th'.top g.depth) := by
  obtain ⟨small, -, page⟩ := (h.held u th' there).stacked.mem mem
  apply trapframeAt_congr
  intro k lt
  rw [slot_word (by omega)]
  apply same
  intro i low high eq
  by_cases here : u = t
  · subst here
    cases own.symm.trans there
    have depth := word_inj eq (by omega) high
    have le := above rfl
    omega
  · exact h.placed.pages u t th' th here there own (g.depth - k) i (by omega) (by omega) (by omega) high eq

omit [DecidableEq C] [DecidableEq T] in
/-- and no context. -/
theorem Inv.context_kept (h : Inv K s) (own : s.threads t = some th) (same : ∀ a, (∀ i, d < i → i ≤ 512 → a ≠ word th.top i) → m a = s.mem a)
    (u : T) : contextAt m (K.context u) = contextAt s.mem (K.context u) := by
  apply contextAt_congr
  intro k lt
  apply same
  intro i low high
  exact h.placed.apart u t th own k lt i (by omega) high

omit [DecidableEq C] in
/-- What is written below the frames of a thread leaves all threads in memory. -/
theorem Inv.below (h : Inv K s) (own : s.threads t = some th) (same : ∀ a, (∀ i, d < i → i ≤ 512 → a ≠ word th.top i) → m a = s.mem a)
    (above : th.depth ≤ d) {u : T} (there : s.threads u = some th') : Held K m u th' := by
  have held := h.held u th' there
  refine held.congr (fun f mem => h.frame_kept own same there mem ?_) fun _ => h.context_kept own same u
  intro here
  subst here
  cases own.symm.trans there
  obtain ⟨-, latest, -⟩ := held.stacked.mem mem
  exact le_trans latest above

omit [DecidableEq C] [DecidableEq T] in
/-- Stacks stay where they are. -/
theorem Placed.of_tops (h : Placed K s) (tops : ∀ t th', s'.threads t = some th' → ∃ th, s.threads t = some th ∧ th'.top = th.top) : Placed K s' := by
  constructor
  · intro t th' there
    obtain ⟨th, was, eq⟩ := tops t th' there
    rw [eq]
    exact h.aligned t th was
  · intro t u th₁ th₂ ne there there'
    obtain ⟨th, was, eq⟩ := tops t th₁ there
    obtain ⟨th', was', eq'⟩ := tops u th₂ there'
    rw [eq, eq']
    exact h.pages t u th th' ne was was'
  · intro t u th₁ there
    obtain ⟨th, was, eq⟩ := tops u th₁ there
    rw [eq]
    exact h.apart t u th was

/-- **A core by itself.** A step of a core changes its registers, memory and what is held of its own thread. -/
theorem Inv.local (h : Inv K s) (own : s.threads (s.current c) = some th) (top : (f th).top = th.top) (core : OnCore K r (f th))
    (held : Held K m (s.current c) (f th)) (others : ∀ t th', t ≠ s.current c → s.threads t = some th' → Held K m t th') :
    Inv K (({ s with regs := Function.update s.regs c r, mem := m } : Sys C T).modify (s.current c) f) := by
  have mine : Function.update s.threads (s.current c) ((s.threads (s.current c)).map f) (s.current c) = some (f th) := by
    rw [Function.update_self, own]
    rfl
  have tops : ∀ t th', Function.update s.threads (s.current c) ((s.threads (s.current c)).map f) t = some th' →
      ∃ th, s.threads t = some th ∧ th'.top = th.top := by
    intro t th' there
    by_cases here : t = s.current c
    · subst here
      cases mine.symm.trans there
      exact ⟨th, own, top⟩
    · rw [Function.update_of_ne here] at there
      exact ⟨th', there, rfl⟩
  constructor
  · intro c'
    by_cases eq : c' = c
    · subst eq
      refine ⟨f th, mine, ?_⟩
      show OnCore K (Function.update s.regs c' r c') (f th)
      rw [Function.update_self]
      exact core
    · obtain ⟨th', there, on⟩ := h.core c'
      have ne : s.current c' ≠ s.current c := h.alone.ne eq
      refine ⟨th', ?_, ?_⟩
      · show Function.update s.threads (s.current c) _ (s.current c') = some th'
        rw [Function.update_of_ne ne, there]
      · show OnCore K (Function.update s.regs c r c') th'
        rw [Function.update_of_ne eq]
        exact on
  · exact h.alone
  · intro t th' there
    by_cases here : t = s.current c
    · subst here
      cases mine.symm.trans there
      exact held
    · change Function.update s.threads (s.current c) _ t = some th' at there
      rw [Function.update_of_ne here] at there
      exact others t th' here there
  · exact h.placed.of_tops tops

/-- **Into the kernel**, from wherever the core is. -/
theorem Inv.enter (h : Inv K s) (linked : K.Linked) (own : s.threads (s.current c) = some th) (irq : Bool) (u : State) (elr : Word)
    (mode : u.mode = (s.regs c).mode) (sp : u.sp_el1 = (s.regs c).sp_el1) (vbar : u.sys .vbar_el1 = (s.regs c).sys .vbar_el1)
    (mem : u.mem = s.mem) (fits : s.Fits c) :
    ∃ s', enter K s c (s.trap c irq) u elr = some s' ∧ (s.trap c irq).Entered K.vectortable K.handlers u elr (s'.core c) ∧
      ((s.regs c).mode = EL0t → (s'.regs c).x 0 = th.tf) ∧ Inv K s' := by
  obtain ⟨th', own', on⟩ := h.core c
  cases own.symm.trans own'
  obtain ⟨d, room, at_⟩ := on.stack
  have aligned := h.placed.aligned _ th own
  have source : u.mode = (s.trap c irq).mode := by
    rw [mode, Sys.trap, Trap.mode]
    cases at_ with
    | inl kernel =>
      rw [kernel]
      rfl
    | inr user =>
      rw [user.1]
      rfl
  have depth : (th.top - (s.regs c).sp_el1).toNat / 8 = d := by
    rw [room.sp, depth_word room.page]
  have page : d + 34 ≤ 512 := by
    have fit := fits th own
    rwa [depth] at fit
  have low : u.sp_el1 = word th.top d := sp.trans room.sp
  have stack : u.sp_el1.toNat % 16 = 0 := by
    rw [low]
    exact word_aligned aligned room.even
  obtain ⟨t, ran, entered⟩ := linked.vectortable.enters (k := s.trap c irq) elr (vbar.trans on.vbar) source stack
  have frame : t.sp_el1 = word th.top (d + 34) := by
    rw [entered.sp, low, word_sub]
  have deep : (th.top - t.sp_el1).toNat / 8 = d + 34 := by
    rw [frame, depth_word page]
  let k := s.trap c irq
  let f := Thread.push k t.sp_el1 (k.frame u elr)
  have pushed : (f th).frames = ⟨k, d + 34, k.frame u elr⟩ :: th.frames := by
    show Frame.mk k _ _ :: th.frames = _
    rw [deep]
  have same : ∀ a, (∀ i, d < i → i ≤ 512 → a ≠ word th.top i) → t.mem a = s.mem a := by
    intro a out
    rw [entered.memory a, mem]
    intro n lt
    rw [low, word_sub, slot_word (by omega)]
    exact out _ (by omega) (by omega)
  have run' : KernelStacks.enter K s c k u elr = some ((s.put c t).modify (s.current c) f) := by
    rw [KernelStacks.enter, ran]
    rfl
  refine ⟨_, run', ?_, ?_, ?_⟩
  · have back : ((s.put c t).modify (s.current c) f).core c = t := by
      show ({ Function.update s.regs c t.toRegs c with mem := t.mem } : State) = t
      rw [Function.update_self]
    rw [back]
    exact entered
  · intro user
    show (Function.update s.regs c t.toRegs c).x 0 = th.tf
    rw [Function.update_self]
    have bottom : d = 0 := by
      cases at_ with
      | inl kernel =>
        rw [kernel] at user
        exact absurd user (by decide)
      | inr user => exact user.2.2
    show t.x 0 = word th.top 34
    rw [entered.tf, low, word_sub, bottom]
  · have own_held := h.held _ th own
    have below := fun {w : T} {th' : Thread} (there : s.threads w = some th') => h.below (m := t.mem) own same room.above there
    refine h.local own rfl ?_ ?_ fun _ _ _ there => below there
    · constructor
      · exact on.running
      · rw [entered.sys _ (by decide) (by decide)]
        exact vbar.trans on.vbar
      · have room' : (f th).Room t.sp_el1 (d + 34) := by
          constructor
          · exact frame
          · have even := room.even
            omega
          · rw [Thread.depth, pushed]
            exact le_rfl
          · exact page
        exact ⟨d + 34, room', .inl entered.mode⟩
    · constructor
      · rw [pushed]
        refine ⟨⟨?_, ?_, page, ?_, ?_⟩, own_held.stacked⟩
        · exact Nat.add_le_add_right room.above 34
        · have even := room.even
          show (d + 34) % 2 = 0
          omega
        · exact source
        · intro user
          cases at_ with
          | inl kernel =>
            have no : k.user = false := by
              show decide ((s.regs c).mode = EL0t) = false
              rw [kernel]
              rfl
            rw [no] at user
            cases user
          | inr user =>
            obtain ⟨-, none, zero⟩ := user
            subst zero
            exact ⟨none, rfl⟩
      · intro g mem
        rw [pushed] at mem
        cases List.mem_cons.1 mem with
        | inl eq =>
          subst eq
          have there := entered.frame
          rw [low, word_sub] at there
          exact there
        | inr mem => exact (below own).frames g mem
      · intro r parked
        have none : th.context = some r := parked
        rw [on.running] at none
        cases none

/-- The frame that is new. -/
theorem enter_threads {k : Trap} {u : State} {elr : Word} (stepped : enter K s c k u elr = some s') (own : s.threads (s.current c) = some th) :
    s'.threads (s.current c) = some (th.push k (s'.regs c).sp_el1 (k.frame u elr)) ∧ s'.current = s.current := by
  obtain ⟨t, -, rfl⟩ := Option.map_eq_some_iff.1 stepped
  have regs : ((s.put c t).modify (s.current c) (Thread.push k t.sp_el1 (k.frame u elr))).regs c = t.toRegs := Function.update_self ..
  refine ⟨?_, rfl⟩
  rw [regs]
  show Function.update s.threads (s.current c) ((s.threads (s.current c)).map _) _ = _
  rw [Function.update_self, own]
  rfl

/-- **Out of the kernel**, or back to where it was interrupted. -/
theorem Inv.ret (h : Inv K s) (linked : K.Linked) (ok : Allowed K s (.ret c)) :
    ∃ s', step K s (.ret c) = some s' ∧ Gives K s (.ret c) s' ∧ Inv K s' := by
  obtain ⟨mode, masked, ⟨k, pc⟩, th, f, fs, own, frames, sp⟩ := ok
  obtain ⟨th', own', on⟩ := h.core c
  cases own.symm.trans own'
  have aligned := h.placed.aligned _ th own
  have held := h.held _ th own
  have stacked := held.stacked
  rw [frames] at stacked
  obtain ⟨⟨below, even, page, target, first⟩, rest⟩ := stacked
  have latest : f ∈ th.frames := by
    rw [frames]
    exact List.mem_cons_self
  have there : trapframeAt s.mem (s.regs c).sp_el1 = f.tf := by
    rw [sp]
    exact held.frames f latest
  have stack : (s.regs c).sp_el1.toNat % 16 = 0 := by
    rw [sp]
    exact word_aligned aligned even
  let u := (f.tf).resume (s.core c)
  have back : (s.core c).mode = EL1h := mode
  have ran : run K.code 22 (s.core c) = some u := by
    have code := linked.vectortable.leaves (k := k) (s := s.core c) pc back stack
    have tf : trapframeAt (s.core c).mem (s.core c).sp_el1 = f.tf := there
    rw [tf, target] at code
    apply code
    rw [Trap.mode]
    cases f.kind.user with
    | true => exact .inl rfl
    | false => exact .inr rfl
  have up : u.sp_el1 = word th.top (f.depth - 34) := by
    show (s.regs c).sp_el1 + 272 = _
    rw [sp]
    exact slot_word (j := 34) (by omega)
  have mode' : u.mode = f.kind.mode := target
  refine ⟨(s.put c u).modify (s.current c) Thread.pop, ?_, ?_, ?_⟩
  · rw [step, ran]
    rfl
  · have regs : ((s.put c u).modify (s.current c) Thread.pop).regs c = u.toRegs := Function.update_self ..
    refine ⟨th, f, fs, own, frames, ?_⟩
    rw [regs]
    refine ⟨rfl, rfl, rfl, ?_, rfl⟩
    cases user : f.kind.user with
    | true =>
      have low : u.mode ≠ EL1h := by
        rw [mode', Trap.mode, user]
        decide
      exact if_neg low
    | false =>
      have high : u.mode = EL1h := by
        rw [mode', Trap.mode, user]
        rfl
      exact (if_pos high).trans up
  · have popped : (Thread.pop th).frames = fs := by
      show th.frames.tail = fs
      rw [frames, List.tail_cons]
    refine h.local own rfl ?_ ?_ fun t th' _ there => h.held t th' there
    · constructor
      · exact on.running
      · exact on.vbar
      · have room : (Thread.pop th).Room u.sp_el1 (f.depth - 34) := by
          constructor
          · exact up
          · omega
          · rw [Thread.depth, popped]
            omega
          · omega
        refine ⟨f.depth - 34, room, ?_⟩
        cases user : f.kind.user with
        | true =>
          obtain ⟨none, depth⟩ := first user
          right
          refine ⟨?_, popped.trans none, by omega⟩
          rw [show u.toRegs.mode = f.kind.mode from mode', Trap.mode, user]
          rfl
        | false =>
          left
          rw [show u.toRegs.mode = f.kind.mode from mode', Trap.mode, user]
          rfl
    · constructor
      · rw [popped]
        exact rest
      · intro g mem
        rw [popped] at mem
        apply held.frames g
        rw [frames]
        exact List.mem_cons_of_mem f mem
      · intro r parked
        have none : th.context = some r := parked
        rw [on.running] at none
        cases none

/-- Frames that are read again are as before, but for what they hold. -/
theorem Stacked.reread {fs : List Frame} (h : Stacked fs) {g : Frame → Frame} (kind : ∀ f, (g f).kind = f.kind) (depth : ∀ f, (g f).depth = f.depth)
    (mode : ∀ f ∈ fs, (g f).tf.spsr.extractLsb' 0 4 = f.kind.mode) : Stacked (fs.map g) := by
  have tops : ∀ fs : List Frame, ((fs.map g).head?.map Frame.depth).getD 0 = (fs.head?.map Frame.depth).getD 0 := by
    intro fs
    cases fs with
    | nil => rfl
    | cons f fs => exact depth f
  induction fs with
  | nil => trivial
  | cons f fs ih =>
    obtain ⟨⟨below, even, page, _, first⟩, rest⟩ := h
    refine ⟨⟨?_, ?_, ?_, ?_, ?_⟩, ih rest fun f mem => mode f (List.mem_cons_of_mem _ mem)⟩
    · rw [tops, depth]
      exact below
    · rw [depth]
      exact even
    · rw [depth]
      exact page
    · rw [kind]
      exact mode f List.mem_cons_self
    · intro user
      rw [kind] at user
      obtain ⟨none, depth'⟩ := first user
      rw [none, depth]
      exact ⟨rfl, depth'⟩

/-- Code in C, and users. -/
theorem Inv.work (h : Inv K s) (ok : Allowed K s (.work c r m)) :
    Inv K (({ s with regs := Function.update s.regs c r, mem := m } : Sys C T).modify (s.current c) (Thread.reread m)) := by
  obtain ⟨leaves, mode, vbar, user, kernel, tf⟩ := ok
  obtain ⟨th, own, on⟩ := h.core c
  have held := h.held _ th own
  let g : Frame → Frame := Frame.reread m th.top
  have kind : ∀ f, (g f).kind = f.kind := by
    intro f
    show (Frame.reread m th.top f).kind = _
    unfold Frame.reread
    split <;> rfl
  have depth : ∀ f, (g f).depth = f.depth := by
    intro f
    show (Frame.reread m th.top f).depth = _
    unfold Frame.reread
    split <;> rfl
  have content : ∀ f ∈ th.frames, trapframeAt m (word th.top f.depth) = (g f).tf := by
    intro f mem
    by_cases own_frame : f.kind.user
    · have eq : g f = { f with tf := trapframeAt m (word th.top f.depth) } := if_pos own_frame
      rw [eq]
    · have eq : g f = f := if_neg own_frame
      rw [eq, leaves.frames _ th own f mem fun both => own_frame both.2, held.frames f mem]
  refine h.local own rfl ?_ ?_ ?_
  · constructor
    · exact on.running
    · exact vbar.trans (on.vbar)
    · obtain ⟨d, room, at_⟩ := on.stack
      have latest : (Thread.reread m th).depth = th.depth := by
        show (((th.frames.map g).head?).map Frame.depth).getD 0 = _
        rw [Thread.depth]
        cases th.frames with
        | nil => rfl
        | cons f fs => exact depth f
      have same : ∀ {sp e}, th.Room sp e → (Thread.reread m th).Room sp e := by
        intro sp e room
        refine ⟨room.sp, room.even, ?_, room.page⟩
        rw [latest]
        exact room.above
      cases at_ with
      | inl high =>
        obtain ⟨e, room⟩ := kernel (mode.trans high) th own
        exact ⟨e, same room, .inl (mode.trans high)⟩
      | inr low =>
        obtain ⟨low, none, zero⟩ := low
        refine ⟨d, ?_, .inr ⟨mode.trans low, ?_, zero⟩⟩
        · rw [user (mode.trans low)]
          exact same room
        · show th.frames.map g = []
          rw [none, List.map_nil]
  · constructor
    · refine held.stacked.reread kind depth fun f mem => ?_
      by_cases own_frame : f.kind.user
      · rw [← content f mem, tf th own f mem own_frame, Trap.mode, if_pos own_frame]
      · have eq : g f = f := if_neg own_frame
        change (g f).tf.spsr.extractLsb' 0 4 = _
        rw [eq]
        exact held.stacked.mode mem
    · intro f' mem
      obtain ⟨f, there, rfl⟩ := List.mem_map.1 mem
      show trapframeAt m (word th.top (g f).depth) = (g f).tf
      rw [depth]
      exact content f there
    · intro r parked
      have none : th.context = some r := parked
      rw [on.running] at none
      cases none
  · intro t th' ne there
    exact (h.held t th' there).congr (fun f mem => leaves.frames t th' there f mem fun both => ne both.1) (leaves.contexts t th' there)

/-- A fault that has a handler. -/
theorem Inv.data_abort (h : Inv K s) {tf p handler : Word} (ok : Allowed K s (.data_abort c tf p handler)) :
    Inv K (({ s with mem := Function.update (Function.update s.mem (slot tf 31) handler) tf p } : Sys C T).modify (s.current c) (Thread.fault p handler)) := by
  obtain ⟨th, f, fs, own, frames, kind, rfl⟩ := ok
  obtain ⟨th', own', on⟩ := h.core c
  cases own.symm.trans own'
  have held := h.held _ th own
  have stacked := held.stacked
  rw [frames] at stacked
  obtain ⟨⟨below, even, page, mode, first⟩, rest⟩ := stacked
  let m : Mem := Function.update (Function.update s.mem (slot (word th.top f.depth) 31) handler) (word th.top f.depth) p
  let tf : Trapframe := { f.tf with x := Function.update f.tf.x 0 p, elr := handler }
  have faulted : (Thread.fault p handler th).frames = { f with tf } :: fs := by
    show th.frames.modifyHead _ = _
    rw [frames]
    rfl
  have same : ∀ a, (∀ i, f.depth - 34 < i → i ≤ 512 → a ≠ word th.top i) → m a = s.mem a := by
    intro a out
    have ne := out f.depth (by omega) page
    have ne' := out (f.depth - 31) (by omega) (by omega)
    show Function.update (Function.update s.mem (slot (word th.top f.depth) 31) handler) (word th.top f.depth) p a = s.mem a
    rw [Function.update_of_ne ne, slot_word (by omega), Function.update_of_ne ne']
  have others : ∀ t th', t ≠ s.current c → s.threads t = some th' → Held K m t th' := by
    intro t th' ne there
    exact (h.held t th' there).congr (fun g mem => h.frame_kept own same there mem fun eq => absurd eq ne) fun _ => h.context_kept own same t
  have all : Inv K (({ s with regs := Function.update s.regs c (s.regs c), mem := m } : Sys C T).modify (s.current c) (Thread.fault p handler)) := by
    refine h.local own rfl ?_ ?_ others
    · constructor
      · exact on.running
      · exact on.vbar
      · obtain ⟨d, room, at_⟩ := on.stack
        have room' : (Thread.fault p handler th).Room (s.regs c).sp_el1 d := by
          refine ⟨room.sp, room.even, ?_, room.page⟩
          have above := room.above
          rw [Thread.depth, frames] at above
          rw [Thread.depth, faulted]
          exact above
        cases at_ with
        | inl high => exact ⟨d, room', .inl high⟩
        | inr low =>
          obtain ⟨-, none, -⟩ := low
          rw [frames] at none
          cases none
    · constructor
      · rw [faulted]
        exact ⟨⟨below, even, page, mode, first⟩, rest⟩
      · intro g mem
        rw [faulted] at mem
        cases List.mem_cons.1 mem with
        | inl eq =>
          subst eq
          have latest : f ∈ th.frames := by
            rw [frames]
            exact List.mem_cons_self
          show trapframeAt m (word th.top f.depth) = tf
          rw [trapframeAt_fault, held.frames f latest]
        | inr mem =>
          have old : g ∈ th.frames := by
            rw [frames]
            exact List.mem_cons_of_mem f mem
          obtain ⟨-, latest, -⟩ := rest.mem mem
          have kept := h.frame_kept own same own old fun _ => by omega
          exact kept.trans (held.frames g old)
      · intro r parked
        have none : th.context = some r := parked
        rw [on.running] at none
        cases none
  rwa [Function.update_eq_self] at all

/-- `forkret`, an instruction at a time. -/
theorem Inv.forkret (h : Inv K s) (linked : K.Linked) (ok : Allowed K s (.forkret c)) :
    ∃ s', step K s (.forkret c) = some s' ∧ Gives K s (.forkret c) s' ∧ Inv K s' := by
  obtain ⟨mode, place⟩ := ok
  obtain ⟨th, own, on⟩ := h.core c
  have keeps : ∀ t : State, run K.code 1 (s.core c) = some t → t.mem = s.mem → t.pstate = (s.regs c).pstate → t.sp_el1 = (s.regs c).sp_el1 →
      t.sys = (s.regs c).sys → step K s (.forkret c) = some (s.put c t) ∧ Inv K (s.put c t) := by
    intro t ran mem pstate sp sys
    have mode' : t.mode = EL1h := (Regs.mode_congr pstate).trans mode
    constructor
    · rw [step, ran]
      rfl
    · obtain ⟨d, room, at_⟩ := on.stack
      have all := h.local (f := id) (r := t.toRegs) (m := s.mem) own rfl ⟨on.running, by rw [sys]; exact on.vbar, d, by rwa [sp], .inl mode'⟩
        (h.held _ th own) fun t th' _ there => h.held t th' there
      unfold Sys.modify at all
      rw [Option.map_id, id, Function.update_eq_self] at all
      unfold Sys.put
      rwa [mem]
  have regs : ∀ t : State, (s.put c t).regs c = t.toRegs := fun t => Function.update_self ..
  have first : K.code K.forkret = some (.bl K.schedule_tail) := linked.forkret.head
  have second : K.code (K.forkret + 4) = some (.b (trapret K.vectortable)) := linked.forkret.tail.head
  have apart : K.forkret ≠ K.forkret + 4 := by
    intro eq
    have zero := left_eq_add.1 eq
    cases zero
  cases place with
  | inl pc =>
    let t : State := { (s.core c).setX 30 ((s.core c).pc + 4) with pc := K.schedule_tail }
    have ran : run K.code 1 (s.core c) = some t := by
      refine run_succ (t := t) ?_ rfl
      rw [Aarch64.step, show (s.core c).pc = K.forkret from pc, first]
      rfl
    obtain ⟨stepped, inv⟩ := keeps t ran rfl rfl rfl rfl
    refine ⟨_, stepped, ?_, inv⟩
    refine ⟨fun _ => ?_, fun pc' => absurd (pc.symm.trans pc') apart, ?_⟩
    · rw [regs]
      refine ⟨rfl, ?_⟩
      show Function.update (s.regs c).x 30 ((s.regs c).pc + 4) = _
      rw [pc]
    · rw [regs]
      rfl
  | inr pc =>
    let t : State := { s.core c with pc := trapret K.vectortable }
    have ran : run K.code 1 (s.core c) = some t := by
      refine run_succ (t := t) ?_ rfl
      rw [Aarch64.step, show (s.core c).pc = K.forkret + 4 from pc, second]
      rfl
    obtain ⟨stepped, inv⟩ := keeps t ran rfl rfl rfl rfl
    refine ⟨_, stepped, ?_, inv⟩
    refine ⟨fun pc' => absurd (pc'.symm.trans pc) apart, fun _ => ?_, ?_⟩
    · rw [regs]
      exact ⟨rfl, rfl⟩
    · rw [regs]
      rfl

/-- **Between threads.** -/
theorem Inv.cswitch (h : Inv K s) (linked : K.Linked) {u : T} (ok : Allowed K s (.cswitch c u)) :
    ∃ s', step K s (.cswitch c u) = some s' ∧ Gives K s (.cswitch c u) s' ∧ Inv K s' := by
  obtain ⟨mode, masked, pc, old, new, tu, there, parked⟩ := ok
  obtain ⟨th, own, on⟩ := h.core c
  obtain ⟨d, room, -⟩ := on.stack
  have ne : u ≠ s.current c := by
    intro eq
    subst eq
    cases own.symm.trans there
    exact parked on.running
  obtain ⟨r, waits⟩ := Option.ne_none_iff_exists'.1 parked
  obtain ⟨held, e, room'⟩ := (h.held u tu there).context r waits
  have text : K.code.At (s.core c).pc Kernel.cswitch := by
    rw [show (s.core c).pc = K.cswitch from pc]
    exact linked.cswitch
  obtain ⟨t, ran, switched⟩ := runs_cswitch text
    mode (by rw [show (s.core c).x 0 = _ from old]; exact linked.aligned _) (by rw [show (s.core c).x 1 = _ from new]; exact linked.aligned _)
  have mem : t.mem = s.mem.put (K.context (s.current c)) (contextWords (s.regs c).sp_el1 (s.regs c).x) := by
    rw [switched.mem, show (s.core c).x 0 = _ from old]
    rfl
  -- only the context of the old thread is written
  have same : ∀ a, (∀ k < 25, a ≠ slot (K.context (s.current c)) k) → t.mem a = s.mem a := by
    intro a out
    rw [mem]
    exact Mem.put_outside out
  have contexts : ∀ w, w ≠ s.current c → contextAt t.mem (K.context w) = contextAt s.mem (K.context w) := by
    intro w ne
    apply contextAt_congr
    intro k lt
    exact same _ fun j lt' => linked.apart w _ ne k lt j lt'
  have frames : ∀ w tw, s.threads w = some tw → ∀ f ∈ tw.frames, trapframeAt t.mem (word tw.top f.depth) = trapframeAt s.mem (word tw.top f.depth) := by
    intro w tw there f mem
    obtain ⟨small, -, page⟩ := (h.held w tw there).stacked.mem mem
    apply trapframeAt_congr
    intro k lt
    rw [slot_word (by omega)]
    apply same
    intro j lt' eq
    exact h.placed.apart _ w tw there j lt' (f.depth - k) (by omega) (by omega) eq.symm
  have mine : contextAt t.mem (K.context (s.current c)) = contextOf (s.regs c) := by
    rw [mem]
    exact contextAt_put ..
  have regs : contextOf t.toRegs = r := by
    rw [switched.regs, show (s.core c).x 1 = _ from new, contexts u ne, held]
  -- the threads
  let was : Thread := { th with context := some (contextOf (s.regs c)) }
  let goes : Thread := { tu with context := none }
  let s' : Sys C T := { (s.put c t) with
    current := Function.update s.current c u, threads := Function.update (Function.update s.threads (s.current c) (some was)) u (some goes) }
  have stepped : step K s (.cswitch c u) = some s' := by
    have threads : (((s.put c t).modify (s.current c) fun th => { th with context := some (contextOf (s.regs c)) }).modify u
        fun th => { th with context := none }).threads = s'.threads := by
      show Function.update (Function.update s.threads (s.current c) ((s.threads (s.current c)).map _)) u
        ((Function.update s.threads (s.current c) ((s.threads (s.current c)).map _) u).map _) = _
      rw [Function.update_of_ne ne, own, there]
      rfl
    rw [step, ran]
    show some ({ (s.put c t) with current := _, threads := _ } : Sys C T) = _
    rw [threads]
  have at_u : s'.threads u = some goes := Function.update_self ..
  have at_old : s'.threads (s.current c) = some was := by
    show Function.update _ u _ (s.current c) = _
    rw [Function.update_of_ne ne.symm, Function.update_self]
  have at_ : ∀ w, w ≠ u → w ≠ s.current c → s'.threads w = s.threads w := by
    intro w ne ne'
    show Function.update _ u _ w = _
    rw [Function.update_of_ne ne, Function.update_of_ne ne']
  have core : s'.regs c = t.toRegs := Function.update_self ..
  have elsewhere : ∀ c', c' ≠ c → s.current c' ≠ u := by
    intro c' _ eq
    obtain ⟨tw, own', on'⟩ := h.core c'
    rw [eq] at own'
    cases own'.symm.trans there
    exact parked on'.running
  have mode' : t.mode = EL1h := (Regs.mode_congr switched.pstate).trans mode
  have sp : t.sp_el1 = r.sp := congrArg Context.sp regs
  refine ⟨s', stepped, ?_, ?_⟩
  · refine ⟨tu, r, there, waits, ?_⟩
    rw [core]
    refine ⟨regs, ?_, switched.pstate⟩
    rw [switched.pc, show (s.core c).x 1 = _ from new, contexts u ne, held]
  · constructor
    · intro c'
      by_cases eq : c' = c
      · subst eq
        refine ⟨goes, ?_, ?_⟩
        · show s'.threads (Function.update s.current c' u c') = _
          rw [Function.update_self]
          exact at_u
        · rw [core]
          refine ⟨rfl, ?_, e, ?_, .inl mode'⟩
          · rw [switched.sys]
            exact on.vbar
          · rw [sp]
            exact ⟨room'.sp, room'.even, room'.above, room'.page⟩
      · obtain ⟨tw, own', on'⟩ := h.core c'
        refine ⟨tw, ?_, ?_⟩
        · show s'.threads (Function.update s.current c u c') = _
          rw [Function.update_of_ne eq, at_ _ (elsewhere c' eq) (h.alone.ne eq)]
          exact own'
        · show OnCore K (Function.update s.regs c t.toRegs c') tw
          rw [Function.update_of_ne eq]
          exact on'
    · intro a b eq
      change Function.update s.current c u a = Function.update s.current c u b at eq
      by_cases here : a = c
      · subst here
        by_cases here' : b = a
        · exact here'.symm
        · rw [Function.update_self, Function.update_of_ne here'] at eq
          exact absurd eq.symm (elsewhere b here')
      · rw [Function.update_of_ne here] at eq
        by_cases here' : b = c
        · subst here'
          rw [Function.update_self] at eq
          exact absurd eq (elsewhere a here)
        · rw [Function.update_of_ne here'] at eq
          exact h.alone eq
    · intro w tw there'
      by_cases here : w = u
      · subst here
        cases at_u.symm.trans there'
        have held' := h.held w tu there
        refine ⟨held'.stacked, fun f mem => (frames w tu there f mem).trans (held'.frames f mem), ?_⟩
        intro r eq
        cases eq
      · by_cases here' : w = s.current c
        · subst here'
          cases at_old.symm.trans there'
          have held' := h.held _ th own
          refine ⟨held'.stacked, fun f mem => (frames _ th own f mem).trans (held'.frames f mem), ?_⟩
          intro q eq
          cases eq
          exact ⟨mine, d, room.sp, room.even, room.above, room.page⟩
        · rw [at_ w here here'] at there'
          exact (h.held w tw there').congr (frames w tw there') fun _ => contexts w here'
    · refine h.placed.of_tops fun w tw there' => ?_
      by_cases here : w = u
      · subst here
        cases at_u.symm.trans there'
        exact ⟨tu, there, rfl⟩
      · by_cases here' : w = s.current c
        · subst here'
          cases at_old.symm.trans there'
          exact ⟨th, own, rfl⟩
        · rw [at_ w here here'] at there'
          exact ⟨tw, there', rfl⟩

omit [DecidableEq C] in
/-- A process that is gone. -/
theorem Inv.freeproc (h : Inv K s) {u : T} (ok : Allowed K s (.freeproc c u)) : Inv K { s with threads := Function.update s.threads u none } := by
  obtain ⟨tu, there, parked⟩ := ok
  have old : ∀ t th, Function.update s.threads u none t = some th → s.threads t = some th := by
    intro t th there'
    by_cases here : t = u
    · subst here
      rw [Function.update_self] at there'
      cases there'
    · rwa [Function.update_of_ne here] at there'
  constructor
  · intro c'
    obtain ⟨th, own, on⟩ := h.core c'
    refine ⟨th, ?_, on⟩
    have ne : s.current c' ≠ u := by
      intro eq
      rw [eq] at own
      cases own.symm.trans there
      exact parked on.running
    show Function.update s.threads u none (s.current c') = _
    rw [Function.update_of_ne ne, own]
  · exact h.alone
  · intro t th there'
    exact h.held t th (old t th there')
  · exact h.placed.of_tops fun t th there' => ⟨th, old t th there', rfl⟩

omit [DecidableEq C] in
/-- **A new process.** Its frame is that of the process that makes it, with what its caller writes to it. -/
theorem Inv.newproc (h : Inv K s) (linked : K.Linked) {u : T} {kstack p : Word} {b : Birth} [DecidableEq C] (ok : Allowed K s (.newproc c u kstack p b)) :
    ∃ s', step K s (.newproc c u kstack p b) = some s' ∧ Gives K s (.newproc c u kstack p b) s' ∧ Inv K s' := by
  obtain ⟨unused, free, from_⟩ := ok
  obtain ⟨th, own, on⟩ := h.core c
  have own_held := h.held _ th own
  let frame := b.frame (trapframeAt s.mem th.tf)
  let top := kstack + 4096
  let regs := birthRegs p K.forkret
  let new : Thread := ⟨top, [⟨⟨true, true⟩, 34, frame⟩], some ⟨word top 34, fun n => regs n⟩⟩
  let m := (s.mem.put (K.context u) (contextWords (word top 34) regs)).put (word top 34) frame.words
  let s' : Sys C T := { s with mem := m, threads := Function.update s.threads u (some new) }
  have stepped : step K s (.newproc c u kstack p b) = some s' := by
    rw [step, own]
    rfl
  -- where it is written
  have outside : ∀ a, (∀ k < 25, a ≠ slot (K.context u) k) → (∀ k < 34, a ≠ slot (word top 34) k) → m a = s.mem a := by
    intro a out out'
    have first : m a = s.mem.put (K.context u) (contextWords (word top 34) regs) a := by
      apply Mem.put_outside
      rw [frame.words_length]
      exact out'
    exact first.trans (Mem.put_outside out)
  have stack : ∀ k < 34, slot (word top 34) k = word top (34 - k) := fun k lt => slot_word (by omega)
  have there : contextAt m (K.context u) = ⟨word top 34, fun n => regs n⟩ := by
    have same : contextAt m (K.context u) = contextAt (s.mem.put (K.context u) (contextWords (word top 34) regs)) (K.context u) := by
      apply contextAt_congr
      intro k lt
      apply Mem.put_outside
      intro j lt'
      rw [frame.words_length] at lt'
      rw [stack j lt']
      exact free.contexts u k lt (34 - j) (by omega) (by omega)
    rw [same]
    exact contextAt_put ..
  have stored : trapframeAt m (word top 34) = frame := trapframeAt_put (s.mem.put (K.context u) (contextWords (word top 34) regs)) (word top 34) frame
  have context : ∀ w, w ≠ u → contextAt m (K.context w) = contextAt s.mem (K.context w) := by
    intro w ne
    apply contextAt_congr
    intro k lt
    apply outside
    · intro j lt'
      exact linked.apart w u ne k lt j lt'
    · intro j lt'
      rw [stack j lt']
      exact free.contexts w k lt (34 - j) (by omega) (by omega)
  have frames : ∀ w tw, s.threads w = some tw → ∀ f ∈ tw.frames, trapframeAt m (word tw.top f.depth) = trapframeAt s.mem (word tw.top f.depth) := by
    intro w tw there f mem
    obtain ⟨small, -, page⟩ := (h.held w tw there).stacked.mem mem
    apply trapframeAt_congr
    intro k lt
    rw [slot_word (by omega)]
    apply outside
    · intro j lt' eq
      exact h.placed.apart _ w tw there j lt' (f.depth - k) (by omega) (by omega) eq.symm
    · intro j lt'
      rw [stack j lt']
      exact free.pages w tw there (f.depth - k) (34 - j) (by omega) (by omega) (by omega) (by omega)
  -- the process that makes it
  have parent : ∀ f ∈ th.frames, f.kind.user → trapframeAt s.mem th.tf = f.tf ∧ f.tf.spsr.extractLsb' 0 4 = EL0t := by
    intro f mem user
    have at_tf : word th.top f.depth = th.tf := by
      rw [own_held.stacked.user mem user]
      rfl
    have mode := own_held.stacked.mode mem
    rw [Trap.mode, if_pos user] at mode
    rw [← at_tf]
    exact ⟨own_held.frames f mem, mode⟩
  have mode : frame.spsr.extractLsb' 0 4 = EL0t := by
    cases b with
    | userproc_init => rfl
    | fork =>
      obtain ⟨th', f, own', mem, user⟩ := from_ (by rintro ⟨⟩)
      cases own.symm.trans own'
      obtain ⟨same, mode⟩ := parent f mem user
      show (trapframeAt s.mem th.tf).spsr.extractLsb' 0 4 = EL0t
      rw [same, mode]
    | clone fn st =>
      obtain ⟨th', f, own', mem, user⟩ := from_ (by rintro ⟨⟩)
      cases own.symm.trans own'
      obtain ⟨same, mode⟩ := parent f mem user
      show (trapframeAt s.mem th.tf).spsr.extractLsb' 0 4 = EL0t
      rw [same, mode]
  have at_u : s'.threads u = some new := Function.update_self ..
  have at_ : ∀ w, w ≠ u → s'.threads w = s.threads w := fun w ne => Function.update_of_ne ne ..
  refine ⟨s', stepped, ?_, ?_⟩
  · intro ne
    obtain ⟨th', f, own', mem, user⟩ := from_ ne
    cases own.symm.trans own'
    obtain ⟨same, -⟩ := parent f mem user
    have eq : frame = b.frame f.tf := by rw [← same]
    refine ⟨th, f, new, own, mem, user, at_u, ?_, rfl⟩
    rw [← eq]
  · constructor
    · intro c'
      obtain ⟨tw, own', on'⟩ := h.core c'
      refine ⟨tw, ?_, on'⟩
      have ne : s.current c' ≠ u := by
        intro eq
        rw [eq, unused] at own'
        cases own'
      exact (at_ _ ne).trans own'
    · exact h.alone
    · intro w tw there'
      by_cases here : w = u
      · subst here
        obtain rfl : new = tw := Option.some.inj (at_u.symm.trans there')
        constructor
        · have depth : 0 + 34 ≤ 34 ∧ 34 % 2 = 0 ∧ 34 ≤ 512 := by decide
          exact ⟨⟨depth.1, depth.2.1, depth.2.2, mode, fun _ => ⟨rfl, rfl⟩⟩, trivial⟩
        · intro f mem
          rw [List.mem_singleton.1 mem]
          exact stored
        · intro r eq
          rw [← Option.some.inj eq]
          have depth : 34 % 2 = 0 ∧ 34 ≤ 512 := by decide
          exact ⟨there, 34, rfl, depth.1, le_rfl, depth.2⟩
      · rw [at_ w here] at there'
        exact (h.held w tw there').congr (frames w tw there') fun _ => context w here
    · have old : ∀ w tw, s'.threads w = some tw → w ≠ u → s.threads w = some tw := fun w tw there' ne => (at_ w ne).symm.trans there'
      have aligned : top.toNat % 16 = 0 := by
        have page := free.aligned
        show (kstack + 4096).toNat % 16 = 0
        rw [BitVec.toNat_add]
        show (kstack.toNat + 4096) % 2 ^ 64 % 16 = 0
        omega
      constructor
      · intro w tw there'
        by_cases here : w = u
        · subst here
          obtain rfl : new = tw := Option.some.inj (at_u.symm.trans there')
          exact aligned
        · exact h.placed.aligned w tw (old w tw there' here)
      · intro v w tv tw ne there' there'' i j low high low' high' eq
        by_cases here : v = u
        · subst here
          obtain rfl : new = tv := Option.some.inj (at_u.symm.trans there')
          exact free.pages w tw (old w tw there'' ne.symm) j i low' high' low high eq.symm
        · by_cases here' : w = u
          · subst here'
            obtain rfl : new = tw := Option.some.inj (at_u.symm.trans there'')
            exact free.pages v tv (old v tv there' here) i j low high low' high' eq
          · exact h.placed.pages v w tv tw ne (old v tv there' here) (old w tw there'' here') i j low high low' high' eq
      · intro v w tw there' i lt j low high
        by_cases here : w = u
        · subst here
          obtain rfl : new = tw := Option.some.inj (at_u.symm.trans there')
          exact free.contexts v i lt j low high
        · exact h.placed.apart v w tw (old w tw there' here) i lt j low high

end Steps

/-- **Every step** goes through, gives what it should, and keeps the threads in memory. -/
theorem Inv.step {K : Image T} {s : Sys C T} {a : Act C T} (h : Inv K s) (linked : K.Linked) (ok : Allowed K s a) :
    ∃ s', step K s a = some s' ∧ Gives K s a s' ∧ Inv K s' := by
  cases a with
  | work c r m => exact ⟨_, rfl, trivial, h.work ok⟩
  | irq c =>
    obtain ⟨th, own, -⟩ := h.core c
    obtain ⟨s', stepped, entered, tf, inv⟩ := h.enter linked own true (s.core c) (s.regs c).pc rfl rfl rfl rfl ok.2
    exact ⟨s', stepped, ⟨th, own, entered, tf⟩, inv⟩
  | sync c esr elr =>
    obtain ⟨th, own, -⟩ := h.core c
    obtain ⟨s', stepped, entered, tf, inv⟩ := h.enter linked own false ((s.core c).setSys .esr_el1 esr) elr rfl rfl rfl rfl ok
    exact ⟨s', stepped, ⟨th, own, entered, tf⟩, inv⟩
  | data_abort c tf p handler => exact ⟨_, rfl, trivial, h.data_abort ok⟩
  | ret c => exact h.ret linked ok
  | cswitch c u => exact h.cswitch linked ok
  | forkret c => exact h.forkret linked ok
  | newproc c u kstack p b => exact h.newproc linked ok
  | freeproc c u => exact ⟨_, rfl, trivial, h.freeproc ok⟩

theorem Inv.next {K : Image T} {s s' : Sys C T} {a : Act C T} (h : Inv K s) (linked : K.Linked) (ok : Allowed K s a)
    (stepped : KernelStacks.step K s a = some s') : Inv K s' := by
  obtain ⟨t, stepped', -, inv⟩ := h.step linked ok
  cases stepped'.symm.trans stepped
  exact inv

theorem Inv.reached {K : Image T} {boot s : Sys C T} (linked : K.Linked) (boots : Boots K boot) (run : (system K boot).Via (Allowed K) s) : Inv K s := by
  refine run.invariant ?_ ?_
  · intro s eq
    rw [show s = boot from eq]
    exact boots.inv
  · intro s a s' inv ok stepped
    exact inv.next linked ok stepped

end System

end Aarch64Os.Kernel.KernelStacks
