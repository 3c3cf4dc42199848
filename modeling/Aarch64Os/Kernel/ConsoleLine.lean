import Aarch64Os.Kernel.ConsoleReaders

/-!
# The line that is typed (`kernel/console.c`)

What a reader is to get, as a fold over the keys, and where `consoleintr` stores it: behind one
kernel address, and one character after another until the reader is back, though the buffer may
end or cross a page, and the line may have ended.
-/

namespace Aarch64Os.Kernel.Console
set_option autoImplicit false
open Base

section Line
variable {n : Nat} {c : BitVec 32} {l : List (BitVec 8)}

/-- What a key makes of the characters held. -/
def edit (held : List (BitVec 8)) (c : BitVec 32) : List (BitVec 8) :=
  if c = 0 ∨ c = C 'P' then held
  else if c = BACKSPACE then held.dropLast
  else if c = C 'D' then held
  else held ++ [(newline c).truncate 8]

/-- The characters held, and whether the line has ended. -/
structure Line where
  held : List (BitVec 8)
  ended : Bool
  deriving DecidableEq

/-- A key ends the line, or fills it, and what is behind the end is not part of it. -/
def Line.key (n : Nat) (line : Line) (c : BitVec 32) : Line :=
  if line.ended then line
  else { held := edit line.held c, ended := c = chr '\n' ∨ c = chr '\r' ∨ c = C 'D' ∨ (edit line.held c).length = n }

/-- The line of `n` characters at most. -/
def Read.line (r : Read) : Line := r.typed.foldl (Line.key r.size) { held := [], ended := false }

/-- What is held when the line goes on behind its end. -/
def Read.held (r : Read) : List (BitVec 8) := r.typed.foldl edit []

@[simp] theorem Read.type_line (r : Read) (c : BitVec 32) : (r.type c).line = r.line.key r.size c :=
  List.foldl_append ..

@[simp] theorem Read.type_held (r : Read) (c : BitVec 32) : (r.type c).held = edit r.held c := List.foldl_append ..

/-- A key that stores a character. -/
def Ordinary (c : BitVec 32) : Prop := c ≠ 0 ∧ c ≠ C 'P' ∧ c ≠ BACKSPACE ∧ c ≠ C 'D'

instance (c : BitVec 32) : Decidable (Ordinary c) := inferInstanceAs (Decidable (_ ∧ _))

theorem Ordinary.edit_eq (ordinary : Ordinary c) : edit l c = l ++ [(newline c).truncate 8] := by
  obtain ⟨zero, p, erase, eof⟩ := ordinary
  rw [edit, if_neg (not_or.2 ⟨zero, p⟩), if_neg erase, if_neg eof]

/-- A key adds a character at most. -/
theorem edit_length (l : List (BitVec 8)) (c : BitVec 32) : (edit l c).length ≤ l.length ∨ Ordinary c ∧ (edit l c).length = l.length + 1 := by
  by_cases ordinary : Ordinary c
  · right
    rw [ordinary.edit_eq, List.length_append]
    exact ⟨ordinary, rfl⟩
  · left
    unfold edit
    split_ifs with none erase eof
    · exact le_rfl
    · rw [List.length_dropLast]
      exact Nat.sub_le _ 1
    · exact le_rfl
    · obtain ⟨zero, p⟩ := not_or.1 none
      exact absurd ⟨zero, p, erase, eof⟩ ordinary

theorem newline_eq_iff {x : BitVec 32} (other : x ≠ chr '\r' ∧ x ≠ chr '\n') : newline c = x ↔ c = x := by
  unfold newline
  split
  · rename_i cr
    rw [cr]
    exact ⟨fun same => absurd same.symm other.2, fun same => absurd same.symm other.1⟩
  · exact Iff.rfl

theorem newline_eq_newline : newline c = chr '\n' ↔ c = chr '\n' ∨ c = chr '\r' := by
  unfold newline
  split
  · rename_i cr
    exact ⟨fun _ => .inr cr, fun _ => rfl⟩
  · rename_i ne
    exact ⟨.inl, fun same => same.resolve_right ne⟩

theorem newline_backspace : newline c = BACKSPACE ↔ c = BACKSPACE := newline_eq_iff (by decide)

theorem newline_eof : newline c = C 'D' ↔ c = C 'D' := newline_eq_iff (by decide)

end Line

section Memory
variable {t : PageTable} {va ka n i : Nat}

/-- A user address behind which there is RAM. -/
def Mapped (t : PageTable) (va : Nat) : Prop := va < 2 ^ 39 ∧ ∃ pte ∈ t.pte va, InRam pte.page

/-- The byte at kernel address `ka` backs the user address `va`. -/
def Backs (t : PageTable) (va ka : Nat) : Prop := va < 2 ^ 39 ∧ ∃ pte ∈ t.pte va, ka = P2V (pte.page * PAGESIZE + va % PAGESIZE)

/-- The pages of `va` and of `va + n` are as far from each other in RAM as they are here. -/
def Follows (t : PageTable) (va n : Nat) : Prop :=
  ∃ pte ∈ t.pte va, ∃ pte' ∈ t.pte (va + n), pte'.page = pte.page + (va % PAGESIZE + n) / PAGESIZE

instance (t : PageTable) (va : Nat) : Decidable (Mapped t va) := inferInstanceAs (Decidable (_ ∧ ∃ _ ∈ _, _))
instance (t : PageTable) (va ka : Nat) : Decidable (Backs t va ka) := inferInstanceAs (Decidable (_ ∧ ∃ _ ∈ _, _))
instance (t : PageTable) (va n : Nat) : Decidable (Follows t va n) := inferInstanceAs (Decidable (∃ _ ∈ _, ∃ _ ∈ _, _))

/-- An address that is mapped has a kernel address. -/
theorem uva2ka_mapped {t t' : PageTable} {mm mm' : Kallocator} (mapped : Mapped t va) (run : uva2ka t va mm = .ok ((ka, t'), mm')) :
    Backs t va ka ∧ ka ≠ 0 ∧ ∀ va, t'.pte va = t.pte va := by
  obtain ⟨low, pte, there, inside⟩ := mapped
  obtain ⟨⟨pa, t₁⟩, mm₁, walk, rest⟩ := run_bind.1 run
  cases rest
  obtain ⟨value, same⟩ := uva2pa_mapped there mm _ _ walk
  dsimp only at value same
  unfold InRam PAGESIZE at inside
  have some (page : Nat) (least : 0x40000000 ≤ page * 4096) : page * 4096 + va % 4096 ≠ 0 := by omega
  rw [value, if_neg (some pte.page inside.1)]
  refine ⟨⟨low, pte, there, rfl⟩, ?_, same⟩
  unfold P2V VA_START U64 PAGESIZE
  omega

/-- Counting on from the kernel address of a buffer. -/
theorem Backs.follows (backs : Backs t va ka) (low : va + n < 2 ^ 39) (follows : Follows t va n) :
    Backs t (va + n) ((ka + n) % U64) := by
  obtain ⟨pte, there, pte', there', far⟩ := follows
  obtain ⟨_, first, there'', place⟩ := backs
  have same : first = pte := Option.mem_unique there'' there
  subst same
  refine ⟨low, pte', there', ?_⟩
  rw [far, place]
  unfold P2V VA_START U64 PAGESIZE
  omega

end Memory

section Stored
variable {cs : Fields} {mem : Memory} {pgt : PageTable} {r : Read} {c : BitVec 32} {i : Nat}

/-- The fields are for the call `r`, and what is held backs the beginning of its buffer. -/
structure Stored (cs : Fields) (mem : Memory) (pgt : PageTable) (r : Read) : Prop where
  start : Backs pgt r.buf cs.readbuf
  some : cs.readbuf ≠ 0
  mapped : ∀ i < r.size, Mapped pgt (r.buf + i)
  bufsz : cs.bufsz = r.size
  low : r.size < U64
  count : r.held.length = cs.bufc
  fits : cs.bufc ≤ r.size
  bytes : ∀ (i : Nat) (x : BitVec 8), r.held[i]? = Option.some x → Backs pgt (r.buf + i) ((cs.readbuf + i) % U64) ∧ mem ((cs.readbuf + i) % U64) = x

/-- The next character goes behind those held. -/
theorem Stored.next (h : Stored cs mem pgt r) (lt : cs.bufc < r.size) (follows : Follows pgt r.buf cs.bufc) :
    Backs pgt (r.buf + cs.bufc) ((cs.readbuf + cs.bufc) % U64) :=
  h.start.follows (h.mapped _ lt).1 follows

/-- What a key stores. -/
theorem press_ordinary (cs : Fields) (mem : Memory) (ordinary : Ordinary c) : cs.press mem (newline c) =
    ({ cs with bufc := (cs.bufc + 1) % U64 }, Function.update mem ((cs.readbuf + cs.bufc) % U64) ((newline c).truncate 8)) := by
  unfold Fields.press
  rw [if_neg (newline_backspace.not.2 ordinary.2.2.1), if_neg (newline_eof.not.2 ordinary.2.2.2)]

/-- **A key.** The memory follows what is held. -/
theorem Stored.input (h : Stored cs mem pgt r) (ok : Ordinary c → cs.bufc < r.size ∧ Follows pgt r.buf cs.bufc) :
    Stored (cs.consoleintr mem c).1 (cs.consoleintr mem c).2.1 pgt (r.type c) := by
  by_cases none : c = 0 ∨ c = C 'P'
  · have same : (r.type c).held = r.held := by rw [Read.type_held, edit, if_pos none]
    rw [cs.consoleintr_ignores mem (none.imp_right .inl)]
    refine ⟨h.start, h.some, h.mapped, h.bufsz, h.low, ?_, h.fits, ?_⟩
    · rw [same]
      exact h.count
    · rw [same]
      exact h.bytes
  · obtain ⟨zero, p⟩ := not_or.1 none
    rw [cs.consoleintr_presses mem zero p h.some]
    by_cases erase : c = BACKSPACE
    · have held : (r.type c).held = r.held.dropLast := by rw [Read.type_held, edit, if_neg none, if_pos erase]
      have sooner : ∀ (i : Nat) (x : BitVec 8), (r.type c).held[i]? = Option.some x → r.held[i]? = Option.some x := by
        intro i x at_
        rw [held, List.getElem?_dropLast] at at_
        split at at_
        · exact at_
        · cases at_
      rw [Fields.press, if_pos (newline_backspace.2 erase)]
      have count := h.count
      have fits := h.fits
      split
      · refine ⟨h.start, h.some, h.mapped, h.bufsz, h.low, ?_, Nat.le_trans (Nat.sub_le _ 1) fits,
          fun i x at_ => h.bytes i x (sooner i x at_)⟩
        rw [held, List.length_dropLast, count]
      · refine ⟨h.start, h.some, h.mapped, h.bufsz, h.low, ?_, fits, fun i x at_ => h.bytes i x (sooner i x at_)⟩
        rw [held, List.length_dropLast]
        show r.held.length - 1 = cs.bufc
        omega
    · by_cases eof : c = C 'D'
      · have same : (r.type c).held = r.held := by rw [Read.type_held, edit, if_neg none, if_neg erase, if_pos eof]
        rw [Fields.press, if_neg (newline_backspace.not.2 erase), if_pos (newline_eof.2 eof)]
        refine ⟨h.start, h.some, h.mapped, h.bufsz, h.low, ?_, h.fits, ?_⟩
        · rw [same]
          exact h.count
        · rw [same]
          exact h.bytes
      · have ordinary : Ordinary c := ⟨zero, p, erase, eof⟩
        obtain ⟨lt, follows⟩ := ok ordinary
        have next := h.next lt follows
        have low := h.low
        have more : (cs.bufc + 1) % U64 = cs.bufc + 1 := Nat.mod_eq_of_lt (by omega)
        have held : (r.type c).held = r.held ++ [(newline c).truncate 8] := by rw [Read.type_held, ordinary.edit_eq]
        rw [press_ordinary cs mem ordinary, more]
        refine ⟨h.start, h.some, h.mapped, h.bufsz, h.low, ?_, lt, fun i x at_ => ?_⟩
        · rw [held, List.length_append, h.count]
          rfl
        · rw [held] at at_
          rcases Nat.lt_or_ge i r.held.length with before | behind
          · rw [List.getElem?_append_left before] at at_
            have other : (cs.readbuf + i) % U64 ≠ (cs.readbuf + cs.bufc) % U64 := by
              rw [h.count] at before
              unfold U64 at *
              omega
            refine ⟨(h.bytes i x at_).1, ?_⟩
            show Function.update mem _ _ _ = x
            rw [Function.update_of_ne other]
            exact (h.bytes i x at_).2
          · rw [List.getElem?_append_right behind] at at_
            obtain ⟨at_', rfl⟩ := List.getElem?_eq_some_iff.1 at_
            obtain rfl : i = cs.bufc := by
              rw [List.length_singleton] at at_'
              rw [← h.count]
              omega
            refine ⟨next, ?_⟩
            show Function.update mem _ _ _ = _
            rw [Function.update_self]
            simp [h.count]

end Stored

section Stores
variable {s t : State} {l : Label}

/-- Buffers are mapped, and a character that is stored fits the buffer and does not come to a page
that lies elsewhere. -/
def InBuffer (s : State) : Label → Prop
  | .read p buf size => Mapped (s.pgt p) buf.toNat ∧ ∀ i < size.toNat, Mapped (s.pgt p) (buf.toNat + i)
  | .input c => Ordinary c → ∀ r ∈ s.read, s.cs.bufc < r.size ∧ Follows (s.pgt r.proc) r.buf s.cs.bufc
  | _ => True

instance (s : State) (l : Label) : Decidable (InBuffer s l) :=
  match l with
  | .read .. => inferInstanceAs (Decidable (_ ∧ _))
  | .input _ => inferInstanceAs (Decidable (_ → _))
  | .call _ | .doze _ | .pick _ | .finish _ | .wakeup | .other .. => isTrue trivial

/-- What the fields are for. -/
def State.Posted (s : State) : Prop := (s.read = none ∧ s.cs.readbuf = 0) ∨ ∃ r, s.read = some r ∧ Stored s.cs s.mem (s.pgt r.proc) r

theorem State.Posted.stored {r : Read} (h : s.Posted) (read : s.read = some r) : Stored s.cs s.mem (s.pgt r.proc) r := by
  rcases h with ⟨none, -⟩ | ⟨r', read', stored⟩
  · rw [none] at read
    cases read
  · rw [read'] at read
    cases read
    exact stored

/-- A read is posted. -/
theorem Stored.post {p : ProcId} {buf size : BitVec 64} {ka : Nat} {pgt : PageTable} {mm : Kallocator}
    (first : Mapped (s.pgt p) buf.toNat) (mapped : ∀ i < size.toNat, Mapped (s.pgt p) (buf.toNat + i))
    (walk : uva2ka (s.pgt p) buf.toNat s.mm = .ok ((ka, pgt), mm)) :
    Stored { readbuf := ka, bufc := 0, bufsz := size.toNat } s.mem ((s.post p buf size ka pgt mm).pgt p)
      { proc := p, buf := buf.toNat, size := size.toNat, typed := [] } := by
  obtain ⟨⟨low, pte, there, place⟩, found, same⟩ := uva2ka_mapped first walk
  have here : (s.post p buf size ka pgt mm).pgt p = pgt := Function.update_self ..
  rw [here]
  refine ⟨⟨low, pte, ?_, place⟩, found, fun i lt => ?_, rfl, size.isLt, rfl, Nat.zero_le _, nofun⟩
  · rw [same]
    exact there
  · unfold Mapped
    rw [same]
    exact mapped i lt

/-- One section. -/
theorem State.Posted.step (h : s.Posted) (ok : InBuffer s l) (step : Step s l t) : t.Posted := by
  cases step with
  | read away runs free walk => exact .inr ⟨_, rfl, .post ok.1 ok.2 walk⟩
  | call at_ free => exact h
  | doze at_ => exact h
  | resume free ready at_ => exact h
  | pick free ready at_ => exact h
  | finish at_ free => exact .inl ⟨rfl, rfl⟩
  | @input c free =>
    rcases h with ⟨none, null⟩ | ⟨r, read, stored⟩
    · refine .inl ⟨?_, (s.cs.consoleintr_readbuf s.mem c).trans null⟩
      rw [State.input, none]
      rfl
    · refine .inr ⟨r.type c, ?_, stored.input fun ordinary => ok ordinary r read⟩
      rw [State.input, read]
      rfl
  | wakeup held free => exact h
  | other away free => exact h

theorem State.Posted.init (start : consoleSystem.init s) : s.Posted := by
  obtain ⟨fields, -, -, -, none⟩ := start
  exact .inl ⟨none, congrArg Fields.readbuf fields⟩

/-- At most one character is stored, behind those held. -/
theorem Fields.consoleintr_mem (cs : Fields) (mem : Memory) (c : BitVec 32) : (cs.consoleintr mem c).2.1 = mem ∨
    Ordinary c ∧ cs.readbuf ≠ 0 ∧
      (cs.consoleintr mem c).2.1 = Function.update mem ((cs.readbuf + cs.bufc) % U64) ((newline c).truncate 8) := by
  by_cases none : c = 0 ∨ c = C 'P' ∨ cs.readbuf = 0
  · rw [cs.consoleintr_ignores mem none]
    exact .inl rfl
  · obtain ⟨zero, rest⟩ := not_or.1 none
    obtain ⟨p, buf⟩ := not_or.1 rest
    rw [cs.consoleintr_presses mem zero p buf]
    by_cases ordinary : Ordinary c
    · rw [press_ordinary cs mem ordinary]
      exact .inr ⟨ordinary, buf, rfl⟩
    · left
      unfold Fields.press
      split_ifs with erase some eof
      · rfl
      · rfl
      · rfl
      · exact absurd ⟨zero, p, newline_backspace.not.1 erase, newline_eof.not.1 eof⟩ ordinary

/-- **Where a line is stored.** A character goes to the byte that backs its place in the buffer, which
is inside it, and the characters held are where they were put. -/
theorem stores_in_buffer (run : consoleSystem.Via InBuffer s) :
    (∀ c t, InBuffer s (.input c) → s.step (.input c) = some t → t.mem = s.mem ∨
      ∃ r a, s.read = some r ∧ s.cs.bufc < r.size ∧ Backs (s.pgt r.proc) (r.buf + s.cs.bufc) a ∧
        t.mem = Function.update s.mem a ((newline c).truncate 8)) ∧
    ∀ r, s.read = some r → r.held.length = s.cs.bufc ∧
      ∀ (i : Nat) (x : BitVec 8), r.held[i]? = some x → ∃ a, Backs (s.pgt r.proc) (r.buf + i) a ∧ s.mem a = x := by
  have posted : s.Posted := run.invariant (fun s start => .init start) fun s l t h ok step => h.step ok (State.step_inv step)
  rcases posted with ⟨none, null⟩ | ⟨r, read, stored⟩
  · refine ⟨fun c t ok step => ?_, fun r read => ?_⟩
    · cases State.step_inv step
      rcases s.cs.consoleintr_mem s.mem c with same | ⟨-, buf, -⟩
      · exact .inl same
      · exact absurd null buf
    · rw [none] at read
      cases read
  · refine ⟨fun c t ok step => ?_, fun r' read' => ?_⟩
    · cases State.step_inv step
      rcases s.cs.consoleintr_mem s.mem c with same | ⟨ordinary, -, stores⟩
      · exact .inl same
      · obtain ⟨lt, follows⟩ := ok ordinary r read
        exact .inr ⟨r, _, read, lt, stored.next lt follows, stores⟩
    · rw [read] at read'
      cases read'
      exact ⟨stored.count, fun i x at_ => ⟨_, stored.bytes i x at_⟩⟩

/-- A line of two characters, in a buffer that is large enough. -/
theorem stores_in_buffer_line : ∃ s r, consoleSystem.Via InBuffer s ∧ s.read = some r ∧ r.held = [97, 10] ∧
    ∃ a, Backs (s.pgt r.proc) (r.buf + 1) a ∧ s.mem a = 10 := by
  have run : (consoleSystem.runIf InBuffer idle (sleeps 0 0x1000 2 ++ [.input (chr 'a'), .input (chr '\r'), .wakeup])).bind (fun s =>
      s.read.map fun r => decide (r.held = [97, 10])) = some true := by decide +kernel
  obtain ⟨s, run, rest⟩ := Option.bind_eq_some_iff.1 run
  obtain ⟨r, read, shown⟩ := Option.map_eq_some_iff.1 rest
  have held := of_decide_eq_true shown
  have via : consoleSystem.Via InBuffer s := .runIf (.init idle_init) run
  refine ⟨s, r, via, read, held, ((stores_in_buffer via).2 r read).2 1 10 ?_⟩
  rw [held]
  rfl

/-- A buffer of one character is full when a second one comes: that is stored behind it. -/
theorem stores_behind_buffer : ∃ s t r a, consoleSystem.Reach s ∧ s.step (.input (chr 'b')) = some t ∧ s.read = some r ∧
    t.mem a ≠ s.mem a ∧ ∀ i < r.size, ¬ Backs (s.pgt r.proc) (r.buf + i) a := by
  have run : (consoleSystem.run idle (sleeps 0 0x1000 1 ++ [.input (chr 'a'), .wakeup])).bind (fun s =>
      (s.step (.input (chr 'b'))).bind fun t => s.read.map fun r => decide (t.mem (P2V 0x40103001) ≠ s.mem (P2V 0x40103001) ∧
        ∀ i < r.size, ¬ Backs (s.pgt r.proc) (r.buf + i) (P2V 0x40103001))) = some true := by decide +kernel
  obtain ⟨s, run, rest⟩ := Option.bind_eq_some_iff.1 run
  obtain ⟨t, step, rest⟩ := Option.bind_eq_some_iff.1 rest
  obtain ⟨r, read, shown⟩ := Option.map_eq_some_iff.1 rest
  exact ⟨s, t, r, _, System.Via.run (.init idle_init) run, step, read, of_decide_eq_true shown⟩

end Stores

section Result
variable {s t : State} {l : Label} {r : Read}

/-- The reader has been woken, and has not left `csread`. -/
def State.Woken (s : State) (p : ProcId) : Prop := s.pc p = .back ∨ s.pc p = .off ∧ (s.procs p).state = .RUNNABLE

instance (s : State) (p : ProcId) : Decidable (s.Woken p) := inferInstanceAs (Decidable (_ ∨ _))

/-- One reader at a time, with a buffer that is mapped, and no key between its wake-up and its return;
what is stored does not come to a page that lies elsewhere, nor is it more than an `int` counts. -/
def Timely (s : State) : Label → Prop
  | .read p buf size => (∀ q, s.pc q = .away) ∧ 0 < size.toNat ∧ ∀ i < size.toNat, Mapped (s.pgt p) (buf.toNat + i)
  | .input c => (∀ p, ¬ s.Woken p) ∧
      (Ordinary c → ∀ r ∈ s.read, Follows (s.pgt r.proc) r.buf s.cs.bufc ∧ s.cs.bufc + 1 < 2 ^ 31)
  | _ => True

instance (s : State) (l : Label) : Decidable (Timely s l) :=
  match l with
  | .read .. => inferInstanceAs (Decidable (_ ∧ _ ∧ _))
  | .input _ => inferInstanceAs (Decidable (_ ∧ (_ → _)))
  | .call _ | .doze _ | .pick _ | .finish _ | .wakeup | .other .. => isTrue trivial

/-- The line of the call `r` is what is held, and the reader is woken when it has ended. -/
structure Typing (s : State) (r : Read) : Prop where
  held : r.held = r.line.held
  going : r.line.ended = false → s.cs.bufc < r.size
  small : s.cs.bufc < 2 ^ 31
  ended : r.line.ended = true ↔ s.lk = some .intr ∨ s.Woken r.proc

/-- What timely keys keep. -/
structure InLine (s : State) : Prop where
  one : OneReader s
  posted : s.Posted
  typing : ∀ r, s.read = some r → Typing s r

/-- Before a key, the line has not ended. -/
theorem Typing.not_ended (h : Typing s r) (free : s.lk = none) (asleep : ∀ p, ¬ s.Woken p) : r.line.ended = false := by
  rw [← Bool.not_eq_true, h.ended, free]
  rintro (held | woken)
  · cases held
  · exact asleep _ woken

/-- Sections that leave the fields, and whether the reader has been or will be woken. -/
theorem Typing.keep (h : Typing s r) (cs : t.cs = s.cs) (woken : t.lk = some .intr ∨ t.Woken r.proc ↔ s.lk = some .intr ∨ s.Woken r.proc) :
    Typing t r := by
  refine ⟨h.held, fun going => ?_, ?_, h.ended.trans woken.symm⟩
  · rw [cs]
    exact h.going going
  · rw [cs]
    exact h.small

/-- A reader is woken at `cswitch` or behind it. -/
theorem State.not_woken {p : ProcId} (off : s.pc p ≠ .off) (back : s.pc p ≠ .back) : ¬ s.Woken p :=
  fun woken => woken.elim back fun ready => off ready.1

/-- `consoleintr` calls `wakeup` when the line ends. -/
theorem Typing.wakes {pgt : PageTable} {c : BitVec 32} (h : Typing s r) (some : s.cs.readbuf ≠ 0) (count : r.held.length = s.cs.bufc)
    (going : r.line.ended = false) (stored : Stored (s.cs.consoleintr s.mem c).1 (s.cs.consoleintr s.mem c).2.1 pgt (r.type c)) :
    (s.cs.consoleintr s.mem c).2.2 = (r.type c).line.ended := by
  have line : (r.type c).line = { held := edit r.held c, ended := c = chr '\n' ∨ c = chr '\r' ∨ c = C 'D' ∨ (edit r.held c).length = r.size } := by
    rw [Read.type_line, Line.key, going, if_neg Bool.false_ne_true, h.held]
  rw [line]
  by_cases none : c = 0 ∨ c = C 'P'
  · have no : ¬ (c = chr '\n' ∨ c = chr '\r' ∨ c = C 'D') := by rcases none with rfl | rfl <;> decide
    have lt := h.going going
    rw [s.cs.consoleintr_ignores s.mem (none.imp_right .inl), edit, if_pos none]
    refine (decide_eq_false fun ends => ?_).symm
    rw [← or_assoc, ← or_assoc, or_assoc (a := c = _)] at ends
    rcases ends with key | full
    · exact no key
    · omega
  · obtain ⟨zero, p⟩ := not_or.1 none
    have size := stored.bufsz
    have held := stored.count
    rw [s.cs.consoleintr_presses s.mem zero p some] at size held ⊢
    rw [Read.type_held] at held
    dsimp only at size held ⊢
    rw [size, ← held]
    refine decide_eq_decide.2 ?_
    rw [newline_eq_newline, newline_eof, or_assoc]
    exact Iff.rfl

/-- The condition, for where the line is stored and for one reader. -/
theorem Timely.inBuffer (h : InLine s) (ok : Timely s l) (step : Step s l t) : InBuffer s l := by
  cases step with
  | @read p buf size _ _ _ _ _ _ _ =>
    obtain ⟨-, some, mapped⟩ := ok
    exact ⟨mapped 0 some, mapped⟩
  | @input c free =>
    intro ordinary r read
    have typing := h.typing r read
    exact ⟨typing.going (typing.not_ended free ok.1), (ok.2 ordinary r read).1⟩
  | _ => trivial

theorem Timely.alone (ok : Timely s l) : Alone s l := by
  cases l with
  | read p buf size =>
    obtain ⟨all, some, mapped⟩ := ok
    refine ⟨all, fun r found => ?_⟩
    cases run : uva2ka (s.pgt p) buf.toNat s.mm with
    | error e =>
      rw [run] at found
      cases found
    | ok r' =>
      rw [run] at found
      cases found
      exact (uva2ka_mapped (mapped 0 some) run).2.1
  | _ => trivial

/-- One section. -/
theorem InLine.step (h : InLine s) (ok : Timely s l) (step : Step s l t) : InLine t := by
  have posted := h.posted.step (Timely.inBuffer h ok step) step
  refine ⟨h.one.step ok.alone step, posted, fun r read => ?_⟩
  have reading : ∀ r, s.read = some r → Reading s r := by
    intro r read
    rcases h.one with ⟨none, -⟩ | ⟨r', read', reading⟩
    · rw [none] at read
      cases read
    · rw [read'] at read
      cases read
      exact reading
  cases step with
  | @read p buf size ka pgt mm away runs free walk =>
    cases read
    refine ⟨rfl, fun _ => ok.2.1, Nat.two_pow_pos 31, ⟨nofun, ?_⟩⟩
    have here : (s.post p buf size ka pgt mm).pc p = .posted ka := Function.update_self ..
    rintro (held | woken)
    · cases held
    · exact absurd woken (State.not_woken (by rw [here]; nofun) (by rw [here]; nofun))
  | @call p chan at_ free =>
    obtain rfl := (reading r read).self (p := p) (by rw [at_]; nofun)
    have here : (s.call r.proc chan).pc r.proc = .handing chan := Function.update_self ..
    refine (h.typing r read).keep rfl (iff_of_false ?_ ?_)
    · rintro (held | woken)
      · cases held
      · exact State.not_woken (by rw [here]; nofun) (by rw [here]; nofun) woken
    · rintro (held | woken)
      · rw [((reading r read).posted chan at_).1] at held
        cases held
      · exact State.not_woken (by rw [at_]; nofun) (by rw [at_]; nofun) woken
  | @doze p chan at_ =>
    obtain rfl := (reading r read).self (p := p) (by rw [at_]; nofun)
    have slot : (s.doze r.proc chan).procs r.proc = { s.procs r.proc with chan := chanOf chan, state := .SLEEPING } :=
      Function.update_self ..
    have here : (s.doze r.proc chan).pc r.proc = .off := Function.update_self ..
    refine (h.typing r read).keep rfl (or_congr_right (iff_of_false ?_ ?_))
    · rintro (back | ⟨-, ready⟩)
      · exact nomatch here.symm.trans back
      · rw [slot] at ready
        cases ready
    · exact State.not_woken (by rw [at_]; nofun) (by rw [at_]; nofun)
  | @resume p free ready at_ =>
    obtain rfl := (reading r read).self (p := p) (by rw [at_]; nofun)
    have here : (s.resume r.proc).pc r.proc = .back := Function.update_self ..
    exact (h.typing r read).keep rfl (iff_of_true (.inr (.inl here)) (.inr (.inr ⟨at_, ready⟩)))
  | @pick p free ready at_ =>
    refine (h.typing r read).keep rfl (or_congr_right ?_)
    rcases eq_or_ne r.proc p with rfl | ne
    · exact ⟨fun woken => .inl (woken.resolve_right fun off => at_ off.1), fun woken => .inl (woken.resolve_right fun off => at_ off.1)⟩
    · have slot : (s.pick p).procs r.proc = s.procs r.proc := Function.update_of_ne ne ..
      unfold State.Woken
      rw [slot]
      exact Iff.rfl
  | finish at_ free => cases read
  | @input c free =>
    obtain ⟨r, read', rfl⟩ := Option.map_eq_some_iff.1 read
    have typing := h.typing r read'
    have going := typing.not_ended free ok.1
    have before := h.posted.stored read'
    have stored := posted.stored read
    have flag := typing.wakes before.some before.count going stored
    have line : (r.type c).line.held = edit r.held c ∧ ((r.type c).line.ended = false → (edit r.held c).length ≠ r.size) := by
      rw [Read.type_line, Line.key, going, if_neg Bool.false_ne_true, typing.held]
      exact ⟨rfl, fun no full => of_decide_eq_false no (.inr (.inr (.inr full)))⟩
    have count : (edit r.held c).length = (s.input c).cs.bufc := by
      rw [← Read.type_held]
      exact stored.count
    refine ⟨?_, fun no => ?_, ?_, ?_⟩
    · rw [line.1, Read.type_held]
    · rw [← count]
      exact lt_of_le_of_ne (count.trans_le stored.fits) (line.2 no)
    · rw [← count]
      have small := typing.small
      have held := before.count
      rcases edit_length r.held c with less | ⟨ordinary, more⟩
      · omega
      · have bound := (ok.2 ordinary r read').2
        omega
    · have asleep : ¬ (s.input c).Woken r.proc := ok.1 r.proc
      have lk : (s.input c).lk = if (s.cs.consoleintr s.mem c).2.2 then some .intr else none := rfl
      rw [lk, flag]
      cases (r.type c).line.ended with
      | true => exact iff_of_true rfl (.inl rfl)
      | false => exact iff_of_false nofun fun woken => woken.elim nofun asleep
  | wakeup held free =>
    refine (h.typing r read).keep rfl (iff_of_true (.inr ?_) (.inl held))
    have reader := reading r read
    -- it has neither lock, so that it is at `cswitch` or behind it
    cases at_ : s.pc r.proc with
    | away => exact absurd at_ reader.inside
    | posted chan =>
      exact nomatch held.symm.trans (reader.posted chan at_).1
    | handing chan =>
      exact nomatch free.symm.trans (reader.handing chan at_).1
    | back => exact .inl at_
    | off =>
      refine .inr ⟨at_, ?_⟩
      rcases reader.off at_ with ready | asleep
      · rcases s.procs.wakeupAcquired_cases (chanOf s.cs.readbuf) r.proc with same | ⟨-, woken⟩
        · exact (congrArg Proc.state same).trans ready
        · exact congrArg Proc.state woken
      · exact congrArg Proc.state (if_pos asleep)
  | @other p x away free =>
    have ne : r.proc ≠ p := by
      rintro rfl
      exact (reading r read).inside away
    refine (h.typing r read).keep rfl (or_congr_right ?_)
    have slot : Function.update s.procs p x r.proc = s.procs r.proc := Function.update_of_ne ne ..
    unfold State.Woken
    dsimp only
    rw [slot]

/-- **The result of `csread`:** the line that was typed, which has ended, in the buffer. -/
theorem csread_line (run : consoleSystem.Via Timely s) {p : ProcId} (step : s.step (.finish p) = some t) :
    ∃ r, s.read = some r ∧ r.proc = p ∧ r.line.ended = true ∧ t.res p = r.line.held.length ∧
      ∀ (i : Nat) (x : BitVec 8), r.line.held[i]? = some x → ∃ a, Backs (t.pgt p) (r.buf + i) a ∧ t.mem a = x := by
  have line : InLine s := by
    refine run.invariant (fun s start => ⟨?_, .init start, fun r read => ?_⟩) fun s l t h ok step => h.step ok (State.step_inv step)
    · exact .inl ⟨start.2.2.2.2, start.2.2.2.1⟩
    · rw [start.2.2.2.2] at read
      cases read
  cases State.step_inv step with
  | finish at_ free =>
    rcases line.one with ⟨-, away⟩ | ⟨r, read, reading⟩
    · exact nomatch at_.symm.trans (away p)
    · obtain rfl := reading.self (p := p) (by rw [at_]; nofun)
      have typing := line.typing r read
      have stored := line.posted.stored read
      refine ⟨r, read, rfl, typing.ended.2 (.inr (.inl at_)), ?_, fun i x held => ?_⟩
      · have small := typing.small
        have res : (s.finish r.proc).res r.proc = (BitVec.ofNat 32 s.cs.bufc).toInt := Function.update_self ..
        have whole : (BitVec.ofNat 32 s.cs.bufc).toNat = s.cs.bufc := by
          rw [BitVec.toNat_ofNat, Nat.mod_eq_of_lt (by omega)]
        rw [res, BitVec.toInt_eq_toNat_of_lt (by omega), whole, ← typing.held, stored.count]
      · rw [← typing.held] at held
        exact ⟨_, stored.bytes i x held⟩

/-- A line with a character that is erased, and its end. -/
def shortLine : List Label := sleeps 0 0x1000 8 ++ [.input (chr 'a'), .input (chr 'b'), .input BACKSPACE, .input (chr '\n'), .wakeup, .pick 0]

/-- It is read. -/
theorem csread_line_short : ∃ s t r, consoleSystem.Via Timely s ∧ s.step (.finish 0) = some t ∧ s.read = some r ∧
    r.line = { held := [97, 10], ended := true } ∧ t.res 0 = 2 := by
  have run : (consoleSystem.runIf Timely idle shortLine).bind (fun s => (s.step (.finish 0)).bind fun t =>
      s.read.map fun r => decide (r.line = { held := [97, 10], ended := true })) = some true := by decide +kernel
  obtain ⟨s, run, rest⟩ := Option.bind_eq_some_iff.1 run
  obtain ⟨t, step, rest⟩ := Option.bind_eq_some_iff.1 rest
  obtain ⟨r, read, shown⟩ := Option.map_eq_some_iff.1 rest
  have line := of_decide_eq_true shown
  have via : consoleSystem.Via Timely s := .runIf (.init idle_init) run
  obtain ⟨r', read', -, -, res, -⟩ := csread_line via step
  rw [read] at read'
  cases read'
  rw [line] at res
  exact ⟨s, t, r, via, step, read, line, res⟩

/-- A key behind the end of the line, which the reader has not seen yet, erases the newline. -/
theorem late_key_erases : ∃ s t r, consoleSystem.Reach s ∧ s.step (.finish 0) = some t ∧ s.read = some r ∧
    r.line = { held := [97, 10], ended := true } ∧ t.res 0 = 1 := by
  have run : (consoleSystem.run idle (sleeps 0 0x1000 8 ++ [.input (chr 'a'), .input (chr '\n'), .wakeup, .input BACKSPACE, .pick 0])).bind
      (fun s => (s.step (.finish 0)).bind fun t => s.read.map fun r =>
        decide (r.line = { held := [97, 10], ended := true } ∧ t.res 0 = 1)) = some true := by decide +kernel
  obtain ⟨s, run, rest⟩ := Option.bind_eq_some_iff.1 run
  obtain ⟨t, step, rest⟩ := Option.bind_eq_some_iff.1 rest
  obtain ⟨r, read, shown⟩ := Option.map_eq_some_iff.1 rest
  exact ⟨s, t, r, System.Via.run (.init idle_init) run, step, read, of_decide_eq_true shown⟩

end Result

end Aarch64Os.Kernel.Console
