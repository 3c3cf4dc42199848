import Aarch64Os.Kernel.Console

/-!
# One reader of the console at a time (`kernel/console.c`)

The fields of `cons1` are for one call of `csread`, which gives up `cs->lk` while it sleeps. As long
as no process enters `csread` while another is there, they are for the process that sleeps.
-/

namespace Aarch64Os.Kernel.Console
set_option autoImplicit false
open Base

variable {s t : State} {p : ProcId} {r : Read} {l : Label}

/-- Nobody is in `csread` when a process enters it, and `uva2ka` finds its buffer. -/
def Alone (s : State) : Label → Prop
  | .read p buf _ => (∀ q, s.pc q = .away) ∧ ∀ r ∈ (uva2ka (s.pgt p) buf.toNat s.mm).toOption, r.1.1 ≠ 0
  | _ => True

instance (s : State) (l : Label) : Decidable (Alone s l) := by
  cases l with
  | read p buf => exact inferInstanceAs (Decidable (_ ∧ _))
  | _ => exact inferInstanceAs (Decidable True)

/-- The call `r` is the only one: it has a lock while it goes to sleep, and sleeps on its buffer. -/
structure Reading (s : State) (r : Read) : Prop where
  inside : s.pc r.proc ≠ .away
  others : ∀ q, q ≠ r.proc → s.pc q = .away
  buf : s.cs.readbuf ≠ 0
  posted : ∀ chan, s.pc r.proc = .posted chan → s.lk = some (.reader r.proc) ∧ chan = s.cs.readbuf
  handing : ∀ chan, s.pc r.proc = .handing chan → s.tlk = some r.proc ∧ chan = s.cs.readbuf
  off : s.pc r.proc = .off → (s.procs r.proc).state = .RUNNABLE ∨
    (s.procs r.proc).state = .SLEEPING ∧ (s.procs r.proc).chan = chanOf s.cs.readbuf

/-- What one reader at a time keeps. -/
def OneReader (s : State) : Prop := (s.read = none ∧ ∀ p, s.pc p = .away) ∨ ∃ r, s.read = some r ∧ Reading s r

/-- No other process is in `csread`. -/
theorem Reading.self (h : Reading s r) (inside : s.pc p ≠ .away) : p = r.proc := by
  by_contra ne
  exact inside (h.others p ne)

/-- The reader moves on in `csread`. -/
theorem Reading.move (h : Reading s r) {pc : ReadPc} (pcs : t.pc = Function.update s.pc r.proc pc) (some : pc ≠ .away)
    (buf : t.cs.readbuf = s.cs.readbuf) (posted : ∀ chan, pc ≠ .posted chan)
    (handing : ∀ chan, pc = .handing chan → t.tlk = .some r.proc ∧ chan = t.cs.readbuf)
    (off : pc = .off → (t.procs r.proc).state = .RUNNABLE ∨
      (t.procs r.proc).state = .SLEEPING ∧ (t.procs r.proc).chan = chanOf t.cs.readbuf) : Reading t r := by
  have here : t.pc r.proc = pc := by rw [pcs, Function.update_self]
  refine ⟨?_, fun q ne => ?_, ?_, fun chan at_ => ?_, fun chan at_ => ?_, fun at_ => ?_⟩
  · rw [here]
    exact some
  · rw [pcs, Function.update_of_ne ne]
    exact h.others q ne
  · rw [buf]
    exact h.buf
  · exact absurd (here.symm.trans at_) (posted chan)
  · exact handing chan (here.symm.trans at_)
  · exact off (here.symm.trans at_)

/-- A process enters `csread`. -/
theorem Reading.enter {buf size : BitVec 64} {ka : Nat} {pgt : PageTable} {mm : Kallocator} (all : ∀ q, s.pc q = .away)
    (found : ka ≠ 0) : Reading (s.post p buf size ka pgt mm) { proc := p, buf := buf.toNat, size := size.toNat, typed := [] } := by
  have here : (s.post p buf size ka pgt mm).pc p = .posted ka := Function.update_self ..
  refine ⟨?_, fun q ne => ?_, found, fun chan at_ => ?_, fun chan at_ => ?_, fun at_ => ?_⟩
  · rw [here]
    nofun
  · exact (Function.update_of_ne ne ..).trans (all q)
  · obtain rfl := ReadPc.posted.inj (here.symm.trans at_)
    exact ⟨rfl, rfl⟩
  · exact nomatch here.symm.trans at_
  · exact nomatch here.symm.trans at_

/-- A section of somebody else, or of the interrupt handler. -/
theorem Reading.stay {r' : Read} (h : Reading s r) (same : r'.proc = r.proc) (pcs : t.pc = s.pc) (buf : t.cs.readbuf = s.cs.readbuf)
    (lk : s.lk = none ∨ s.lk = some .intr ∨ t.lk = s.lk) (tlk : t.tlk = s.tlk)
    (procs : (t.procs r.proc).state = .RUNNABLE ∨ t.procs r.proc = s.procs r.proc) : Reading t r' := by
  refine ⟨?_, fun q ne => ?_, ?_, fun chan at_ => ?_, fun chan at_ => ?_, fun at_ => ?_⟩
  all_goals rw [same] at *
  · rw [pcs]
    exact h.inside
  · rw [pcs]
    exact h.others q ne
  · rw [buf]
    exact h.buf
  · rw [pcs] at at_
    obtain ⟨held, eq⟩ := h.posted chan at_
    rcases lk with free | intr | keeps
    · rw [held] at free
      cases free
    · rw [held] at intr
      cases intr
    · exact ⟨keeps.trans held, eq.trans buf.symm⟩
  · rw [pcs] at at_
    rw [tlk, buf]
    exact h.handing chan at_
  · rw [pcs] at at_
    rcases procs with woken | keeps
    · exact .inl woken
    · rw [keeps, buf]
      exact h.off at_

/-- One section. -/
theorem OneReader.step (h : OneReader s) (ok : Alone s l) (step : Step s l t) : OneReader t := by
  rcases h with ⟨none, away⟩ | ⟨r, read, h⟩
  · have nowhere : ∀ p pc, s.pc p = pc → pc = .away := fun p pc at_ => at_.symm.trans (away p)
    cases step with
    | @read p buf size ka pgt mm _ runs free walk => exact .inr ⟨_, rfl, .enter ok.1 (ok.2 ((ka, pgt), mm) (by rw [walk]; rfl))⟩
    | @call p chan at_ free => exact nomatch nowhere _ _ at_
    | @doze p chan at_ => exact nomatch nowhere _ _ at_
    | @resume p free ready at_ => exact nomatch nowhere _ _ at_
    | @pick p free ready at_ => exact .inl ⟨none, away⟩
    | @finish p at_ free => exact nomatch nowhere _ _ at_
    | @input c free => exact .inl ⟨by rw [State.input, none]; rfl, away⟩
    | wakeup held free => exact .inl ⟨none, away⟩
    | @other p x _ free => exact .inl ⟨none, away⟩
  · cases step with
    | @read p buf size ka pgt mm _ runs free walk => exact absurd (ok.1 r.proc) h.inside
    | @call p chan at_ free =>
      obtain rfl := h.self (p := p) (by rw [at_]; nofun)
      refine .inr ⟨r, read, h.move rfl nofun rfl nofun (fun chan' at_' => ⟨rfl, ?_⟩) nofun⟩
      rw [← ReadPc.handing.inj at_']
      exact (h.posted chan at_).2
    | @doze p chan at_ =>
      obtain rfl := h.self (p := p) (by rw [at_]; nofun)
      have slot : (s.doze r.proc chan).procs r.proc = { s.procs r.proc with chan := chanOf chan, state := .SLEEPING } :=
        Function.update_self ..
      refine .inr ⟨r, read, h.move rfl nofun rfl nofun nofun fun _ => .inr ?_⟩
      rw [slot]
      exact ⟨rfl, congrArg chanOf (h.handing chan at_).2⟩
    | @resume p free ready at_ =>
      obtain rfl := h.self (p := p) (by rw [at_]; nofun)
      exact .inr ⟨r, read, h.move rfl nofun rfl nofun nofun nofun⟩
    | @pick p free ready at_ =>
      refine .inr ⟨r, read, ?_⟩
      rcases eq_or_ne r.proc p with rfl | ne
      · -- it was not at `cswitch`, and is not there now
        exact ⟨h.inside, h.others, h.buf, h.posted, h.handing, fun off => absurd off at_⟩
      · have slot : (s.pick p).procs r.proc = s.procs r.proc := Function.update_of_ne ne ..
        exact h.stay rfl rfl rfl (.inr (.inr rfl)) rfl (.inr slot)
    | @finish p at_ free =>
      obtain rfl := h.self (p := p) (by rw [at_]; nofun)
      refine .inl ⟨rfl, fun q => ?_⟩
      show Function.update s.pc r.proc .away q = .away
      rw [Function.update_apply]
      split
      · rfl
      · exact h.others q ‹_›
    | @input c free =>
      refine .inr ⟨r.type c, ?_, h.stay rfl rfl (s.cs.consoleintr_readbuf s.mem c) (.inl free) rfl (.inr rfl)⟩
      rw [State.input, read]
      rfl
    | wakeup held free =>
      refine .inr ⟨r, read, h.stay rfl rfl rfl (.inr (.inl held)) rfl ?_⟩
      rcases Procs.wakeupAcquired_cases s.procs (chanOf s.cs.readbuf) r.proc with same | woken
      · exact .inr same
      · exact .inl (congrArg Proc.state woken.2)
    | @other p x away free =>
      refine .inr ⟨r, read, h.stay rfl rfl rfl (.inr (.inr rfl)) rfl (.inr (Function.update_of_ne ?_ ..))⟩
      rintro rfl
      exact h.inside away

/-- What holds in every run. -/
theorem one_reader (run : consoleSystem.Via Alone s) : OneReader s := by
  apply run.invariant (fun s start => .inl ⟨start.2.2.2.2, start.2.2.2.1⟩)
  exact fun s l t h ok step => h.step ok (State.step_inv step)

/-- **The next end of line wakes the process that sleeps in `csread`,** and the process that leaves
`csread` is the one that the fields are for. -/
theorem readers_right (run : consoleSystem.Via Alone s) :
    (s.lk = none → ∀ p, s.pc p = .off → (s.procs p).state = .SLEEPING →
      (s.procs p).chan = chanOf s.cs.readbuf ∧
      ∀ c, c = chr '\n' ∨ c = chr '\r' ∨ c = C 'D' → ∃ t, s.step (.input c) = some t ∧ t.lk = some .intr ∧
        ∀ u, t.step .wakeup = some u → (u.procs p).state = .RUNNABLE) ∧
    ∀ p, s.pc p = .back → ∃ r, s.read = some r ∧ r.proc = p := by
  have one := one_reader run
  have posted : ∀ p, s.pc p ≠ .away → ∃ r, s.read = some r ∧ r.proc = p ∧ Reading s r := by
    intro p inside
    rcases one with ⟨-, away⟩ | ⟨r, read, h⟩
    · exact absurd (away p) inside
    · exact ⟨r, read, (h.self inside).symm, h⟩
  constructor
  · intro free p off asleep
    obtain ⟨r, read, rfl, h⟩ := posted p (by rw [off]; nofun)
    have chan : (s.procs r.proc).chan = chanOf s.cs.readbuf := by
      rcases h.off off with woken | ⟨-, chan⟩
      · rw [asleep] at woken
        cases woken
      · exact chan
    refine ⟨chan, fun c ending => ⟨s.input c, if_pos free, ?_, fun u wake => ?_⟩⟩
    · show (if (s.cs.consoleintr s.mem c).2.2 then _ else _) = _
      rw [s.cs.consoleintr_ends s.mem h.buf ending]
      rfl
    · cases State.step_inv wake
      have same : (s.procs r.proc).state = .SLEEPING ∧ (s.procs r.proc).chan = chanOf (s.input c).cs.readbuf := by
        rw [State.input, s.cs.consoleintr_readbuf]
        exact ⟨asleep, chan⟩
      exact congrArg Proc.state (if_pos same)
  · intro p back
    obtain ⟨r, read, same, -⟩ := posted p (by rw [back]; nofun)
    exact ⟨r, read, same⟩

/-- Two pages at 0x1000, in a page table and in RAM. -/
def twoPages : PageTable :=
  (Table.empty 0x40100).put 0 (some ((Table.empty 0x40101).put 0 (some
    (((Table.empty 0x40102).put 1 (some { page := 0x40103, attr := 0 })).put 2 (some { page := 0x40104, attr := 0 })))))

/-- Processes that run, each with these pages. -/
def idle : State where
  cs := { readbuf := 0, bufc := 0, bufsz := 0 }
  lk := none
  tlk := none
  mem _ := 0
  mm := { freelist := [], held := false }
  pgt _ := twoPages
  procs _ := { Proc.zero with state := .RUNNING }
  pc _ := .away
  res _ := 0
  read := none

theorem idle_init : consoleSystem.init idle := ⟨rfl, rfl, rfl, fun _ => rfl, rfl⟩

/-- A process goes to sleep in `csread`. -/
def sleeps (p : ProcId) (buf size : BitVec 64) : List Label := [.read p buf size, .call p, .doze p]

/-- A process that sleeps in `csread`. -/
theorem readers_right_sleeper : ∃ s t, consoleSystem.Via Alone s ∧ (s.procs 0).state = .SLEEPING ∧
    s.step (.input (chr '\n')) = some t ∧ ∀ u, t.step .wakeup = some u → (u.procs 0).state = .RUNNABLE := by
  have run : (consoleSystem.runIf Alone idle (sleeps 0 0x1000 8)).map (fun s =>
      decide (s.lk = none ∧ s.pc 0 = .off ∧ (s.procs 0).state = .SLEEPING)) = some true := by decide +kernel
  obtain ⟨s, run, shown⟩ := Option.map_eq_some_iff.1 run
  obtain ⟨free, off, asleep⟩ := of_decide_eq_true shown
  have via : consoleSystem.Via Alone s := .runIf (.init idle_init) run
  obtain ⟨-, wakes⟩ := (readers_right via).1 free 0 off asleep
  obtain ⟨t, step, -, woken⟩ := wakes (chr '\n') (.inl rfl)
  exact ⟨s, t, via, asleep, step, woken⟩

/-- The reader of a line has been woken when another process enters `csread`: it returns the count
of that one, which is 0, and leaves it asleep for ever. -/
theorem second_reader_lost : ∃ s t, consoleSystem.Reach s ∧ s.pc 0 = .back ∧ s.read.map Read.proc = some 1 ∧
    s.step (.finish 0) = some t ∧ t.res 0 = 0 ∧ t.lk = none ∧ t.pc 1 = .off ∧ (t.procs 1).state = .SLEEPING ∧
    (t.procs 1).chan ≠ chanOf t.cs.readbuf := by
  have run : (consoleSystem.run idle (sleeps 0 0x1000 8 ++ [.input (chr 'a'), .input (chr '\n'), .wakeup, .pick 0] ++
      sleeps 1 0x2000 8)).bind (fun s => (s.step (.finish 0)).map fun t =>
      decide (s.pc 0 = .back ∧ s.read.map Read.proc = some 1 ∧ t.res 0 = 0 ∧ t.lk = none ∧ t.pc 1 = .off ∧
        (t.procs 1).state = .SLEEPING ∧ (t.procs 1).chan ≠ chanOf t.cs.readbuf)) = some true := by decide +kernel
  obtain ⟨s, run, rest⟩ := Option.bind_eq_some_iff.1 run
  obtain ⟨t, step, shown⟩ := Option.map_eq_some_iff.1 rest
  obtain ⟨back, other, shown⟩ := of_decide_eq_true shown
  exact ⟨s, t, System.Via.run (.init idle_init) run, back, other, step, shown⟩

end Aarch64Os.Kernel.Console
