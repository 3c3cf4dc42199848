import Mathlib
import Aarch64Os.Base.Transition
import Aarch64Os.Driver.Virtio
import Aarch64Os.Kernel.Ext2.Super

/-!
# Processes that share a buffer (`kernel/buf.c`)

`get_buf` and `bio_free` run under `bcache.lk` and are one step each. `bio_read` looks at
`valid` after that lock has been released, and the device moves the data of a request at
any time after it has been queued. A process may be killed while it waits for the device;
its request stays queued. Processes are of any type: a slot of the process table that is
used again stands for a new process.
-/

namespace Aarch64Os.Kernel.Sharing
set_option autoImplicit false
open Base
open Driver (DiskOp)

/-- Where a process is in `bio_read` or `bio_write`. -/
inductive Pc
  /-- in neither -/
  | out
  /-- in `bio_read`, before it looks at `valid` -/
  | got (b : BufId) (bno : BitVec 32)
  /-- in `bio_read`, in `virtio_blk_op` -/
  | reading (b : BufId)
  /-- in `bio_write`, in `virtio_blk_op` -/
  | writing (b : BufId)
  /-- left through `exitproc` -/
  | dead

/-- A request the device has not carried out yet. -/
structure Req where
  buf : BufId
  bno : BitVec 32
  op : DiskOp

/-- What the device has done: filled a buffer while these processes held it, or sent its
data when these bytes had been stored in it. -/
inductive Event (P : Type)
  | filled (b : BufId) (holders : List P)
  | sent (b : BufId) (data : Block) (stored : Fin BUFSIZE → Option (BitVec 8))

/-- The processes around the buffer cache. `holders` and `readers` say who the references
of a buffer are for: processes it has been returned to, and processes still in `bio_read`.
`stored` is the last byte a holder has stored at a place since the buffer was taken. The
kernel sees none of these, nor `log`. -/
structure State (P : Type) where
  fs : Fs
  pc : P → Pc
  pend : P → Option Req
  stopped : Option Fault
  holders : BufId → List P
  readers : BufId → List P
  stored : BufId → Fin BUFSIZE → Option (BitVec 8)
  log : List (Event P)

/-- One step of a process or of the device. -/
inductive Label (P : Type)
  | read (p : P) (bno : BitVec 32)
  | test (p : P)
  | modify (p : P) (b : BufId) (x : Fin BUFSIZE) (v : BitVec 8)
  | write (p : P) (b : BufId)
  | free (p : P) (b : BufId)
  | transfer (p : P)
  | done (p : P)
  | kill (p : P)

/-- The device carries out a request. -/
def Req.transfer (r : Req) (fs : Fs) : Fs :=
  match r.op with
  | .DREAD => { fs with bcache := fs.bcache.set r.buf fun x => { x with data := fs.disk r.bno } }
  | .DWRITE => { fs with disk := Function.update fs.disk r.bno (fs.bcache r.buf).data }

section Steps
variable {P : Type} [DecidableEq P]

/-- Move process `p`. -/
def State.go (s : State P) (p : P) (pc : Pc) : State P := { s with pc := Function.update s.pc p pc }

/-- Run a piece of the kernel; a fault stops the machine. -/
def State.exec {α : Type} (s : State P) (f : FsM α) (k : α → Fs → State P) : State P :=
  match f s.fs with
  | .ok (a, fs) => k a fs
  | .error e => { s with stopped := some e }

/-- `bio_read` up to the return of `get_buf`. -/
def State.read (s : State P) (p : P) (bno : BitVec 32) : State P :=
  s.exec (getBuf bno) fun b fs =>
    { s.go p (.got b bno) with fs := fs, readers := Function.update s.readers b (p :: s.readers b) }

/-- `p` has been returned `b`. -/
def State.hand (s : State P) (p : P) (b : BufId) : State P :=
  { s.go p .out with
    holders := Function.update s.holders b (p :: s.holders b)
    readers := Function.update s.readers b ((s.readers b).erase p) }

/-- `p` calls `virtio_blk_op`. -/
def State.submit (s : State P) (p : P) (pc : Pc) (r : Req) : State P :=
  { s.go p pc with pend := Function.update s.pend p (some r) }

/-- `if(!b->valid)`. -/
def State.test (s : State P) (p : P) (b : BufId) (bno : BitVec 32) : State P :=
  if !(s.fs.bcache b).valid then s.submit p (.reading b) { buf := b, bno := bno, op := .DREAD }
  else s.hand p b

/-- `b->valid = 1`. -/
def State.validate (s : State P) (b : BufId) : State P :=
  { s with fs := { s.fs with bcache := s.fs.bcache.set b fun x => { x with valid := true } } }

/-- A holder stores a byte. -/
def State.modify (s : State P) (b : BufId) (x : Fin BUFSIZE) (v : BitVec 8) : State P :=
  { s with
    fs := { s.fs with bcache := s.fs.bcache.set b fun d => { d with data := Function.update d.data x v } }
    stored := Function.update s.stored b (Function.update (s.stored b) x (some v)) }

/-- `bio_free`. -/
def State.free (s : State P) (p : P) (b : BufId) : State P :=
  s.exec (bioFree b) fun _ fs =>
    { s with
      fs := fs
      holders := Function.update s.holders b ((s.holders b).erase p)
      stored := Function.update s.stored b (if (s.fs.bcache b).ref = 1 then fun _ => none else s.stored b) }

/-- The device carries out the request of `p`. -/
def State.transfer (s : State P) (p : P) (r : Req) : State P :=
  { s with
    fs := r.transfer s.fs
    pend := Function.update s.pend p none
    log := (match r.op with
      | .DREAD => .filled r.buf (s.holders r.buf)
      | .DWRITE => .sent r.buf (s.fs.bcache r.buf).data (s.stored r.buf)) :: s.log }

/-- The step function; a fault stops the machine. Callers use a buffer only while they hold it. -/
def State.step (s : State P) (a : Label P) : Option (State P) :=
  if s.stopped.isSome then none
  else
    match a with
    | .read p bno =>
      match s.pc p with
      | .out => some (s.read p bno)
      | _ => none
    | .test p =>
      match s.pc p with
      | .got b bno => some (s.test p b bno)
      | _ => none
    | .modify p b x v =>
      match s.pc p with
      | .out => if p ∈ s.holders b then some (s.modify b x v) else none
      | _ => none
    | .write p b =>
      match s.pc p with
      | .out =>
        if p ∈ s.holders b then
          some (s.submit p (.writing b) { buf := b, bno := (s.fs.bcache b).bno, op := .DWRITE })
        else none
      | _ => none
    | .free p b =>
      match s.pc p with
      | .out => if p ∈ s.holders b then some (s.free p b) else none
      | _ => none
    | .transfer p => (s.pend p).map (s.transfer p)
    | .done p =>
      if (s.pend p).isSome then none
      else
        match s.pc p with
        | .reading b => some ((s.validate b).hand p b)
        | .writing b => some ((s.validate b).go p .out)
        | _ => none
    | .kill p =>
      match s.pc p with
      | .reading _ => some (s.go p .dead)
      | .writing _ => some (s.go p .dead)
      | _ => none

/-- After `buf_init`, with any disk. -/
def State.boot (disk : BitVec 32 → Block) : State P where
  fs := Fs.boot disk
  pc := fun _ => .out
  pend := fun _ => none
  stopped := none
  holders := fun _ => []
  readers := fun _ => []
  stored := fun _ _ => none
  log := []

/-- Any number of processes using the buffer cache. -/
def bufSystem (P : Type) [DecidableEq P] : System (State P) (Label P) where
  init s := ∃ disk, s = State.boot disk
  step := State.step

/-- No disk read has filled a buffer somebody held, and every write has sent what had been
stored last, byte by byte. -/
structure Intact (log : List (Event P)) : Prop where
  filled : ∀ b ps, Event.filled b ps ∈ log → ps = []
  sent : ∀ b data stored, Event.sent b data stored ∈ log → ∀ x v, stored x = some v → data x = v

/-- `p` has found `b` not valid and is still to set `valid`, or its disk read is still to come. -/
def State.Reading (s : State P) (p : P) (b : BufId) : Prop :=
  s.pc p = .reading b ∨ ∃ bno, s.pend p = some { buf := b, bno := bno, op := .DREAD }

/-- Who finds a buffer not valid is the only one to read it. -/
def SoleReader (s : State P) : Label P → Prop
  | .test p => ∀ b bno, s.pc p = .got b bno → (s.fs.bcache b).valid = false → ∀ q, ¬ s.Reading q b
  | _ => True

/-- A buffer counts those that use it; while it is not valid nobody holds it, and it has
what its holders have stored. -/
structure State.BufOk (s : State P) (b : BufId) : Prop where
  count : (s.fs.bcache b).ref = (s.holders b).length + (s.readers b).length
  fresh : (s.fs.bcache b).valid = false → s.holders b = [] ∧ ∀ x, s.stored b x = none
  stored : ∀ x v, s.stored b x = some v → (s.fs.bcache b).data x = v

/-- A process in `bio_read` or `bio_write` has its buffer, which is not valid while it reads. -/
structure State.ProcOk (s : State P) (p : P) : Prop where
  got : ∀ b bno, s.pc p = .got b bno → p ∈ s.readers b
  reading : ∀ b, s.Reading p b → (s.fs.bcache b).valid = false ∧ p ∈ s.readers b
  writing : ∀ b, s.pc p = .writing b → p ∈ s.holders b
  quiet : s.pc p = .out ∨ (∃ b bno, s.pc p = .got b bno) → s.pend p = none

/-- What holds while every reader is the only one. -/
structure Inv (s : State P) : Prop where
  buf : ∀ b, s.BufOk b
  proc : ∀ p, s.ProcOk p
  once : ∀ p q b, s.Reading p b → s.Reading q b → p = q
  intact : Intact s.log

end Steps

section Invariant
variable {P : Type} {s t : State P} {p q : P} {b : BufId}

/-- Only process `p` and buffer `b` differ, apart from the log. -/
structure Touches (s t : State P) (p : P) (b : BufId) : Prop where
  buf : ∀ d, d ≠ b → t.fs.bcache d = s.fs.bcache d
  holders : ∀ d, d ≠ b → t.holders d = s.holders d
  readers : ∀ d, d ≠ b → t.readers d = s.readers d
  stored : ∀ d, d ≠ b → t.stored d = s.stored d
  pc : ∀ q, q ≠ p → t.pc q = s.pc q
  pend : ∀ q, q ≠ p → t.pend q = s.pend q

theorem Touches.reading (h : Touches s t p b) (ne : q ≠ p) (d : BufId) : t.Reading q d ↔ s.Reading q d := by
  simp only [State.Reading, h.pc q ne, h.pend q ne]

/-- A step that touches one process and one buffer keeps the invariant when these two are
right after it, and the others keep what they have of the buffer. -/
theorem Inv.touch (h : Inv s) (touches : Touches s t p b) (buf : t.BufOk b) (proc : t.ProcOk p)
    (readers : ∀ q, q ≠ p → q ∈ s.readers b → q ∈ t.readers b) (holders : ∀ q, q ≠ p → q ∈ s.holders b → q ∈ t.holders b)
    (invalid : ∀ q, q ≠ p → s.Reading q b → (t.fs.bcache b).valid = false)
    (sole : ∀ d, t.Reading p d → s.Reading p d ∨ ∀ q, ¬ s.Reading q d) (intact : Intact t.log) : Inv t := by
  have reads : ∀ q d, t.Reading q d → s.Reading q d ∨ q = p ∧ ∀ q, ¬ s.Reading q d := by
    intro q d reading
    by_cases e : q = p
    · subst e
      exact (sole d reading).imp_right fun none => ⟨rfl, none⟩
    · exact .inl ((touches.reading e d).1 reading)
  refine ⟨fun d => ?_, fun q => ?_, fun q q' d one two => ?_, intact⟩
  · by_cases e : d = b
    · exact e ▸ buf
    · have old := h.buf d
      refine ⟨?_, ?_, ?_⟩
      · rw [touches.buf d e, touches.holders d e, touches.readers d e]
        exact old.count
      · rw [touches.buf d e, touches.holders d e, touches.stored d e]
        exact old.fresh
      · rw [touches.buf d e, touches.stored d e]
        exact old.stored
  · by_cases e : q = p
    · exact e ▸ proc
    have old := h.proc q
    have member : ∀ d, q ∈ s.readers d → q ∈ t.readers d := by
      intro d mem
      by_cases same : d = b
      · subst same
        exact readers q e mem
      · rwa [touches.readers d same]
    refine ⟨fun d bno pc => ?_, fun d reading => ?_, fun d pc => ?_, fun idle => ?_⟩
    · rw [touches.pc q e] at pc
      exact member d (old.got d bno pc)
    · have before := (touches.reading e d).1 reading
      obtain ⟨not_valid, mem⟩ := old.reading d before
      refine ⟨?_, member d mem⟩
      by_cases same : d = b
      · subst same
        exact invalid q e before
      · rwa [touches.buf d same]
    · rw [touches.pc q e] at pc
      have mem := old.writing d pc
      by_cases same : d = b
      · subst same
        exact holders q e mem
      · rwa [touches.holders d same]
    · rw [touches.pc q e] at idle
      rw [touches.pend q e]
      exact old.quiet idle
  · rcases reads q d one with one | ⟨eq, none⟩ <;> rcases reads q' d two with two | ⟨eq', none'⟩
    · exact h.once q q' d one two
    · exact absurd one (none' q)
    · exact absurd two (none q')
    · exact eq.trans eq'.symm

/-- `get_buf` takes one more reference and leaves data and `valid` alone. -/
theorem getBuf_took {fs fs' : Fs} {bno : BitVec 32} (h : getBuf bno fs = .ok (b, fs')) :
    (∀ d, d ≠ b → fs'.bcache d = fs.bcache d) ∧ (fs'.bcache b).ref = (fs.bcache b).ref + 1 ∧
      (fs'.bcache b).valid = (fs.bcache b).valid ∧ (fs'.bcache b).data = (fs.bcache b).data := by
  unfold getBuf at h
  split at h
  case h_1 d _ =>
    obtain ⟨rfl, rfl⟩ : d = b ∧ _ = fs' := by simpa using h
    exact ⟨fun e ne => by simp only [Bcache.set_ne _ _ ne], by simp, by simp, by simp⟩
  case h_2 d slot =>
    obtain ⟨rfl, rfl⟩ : d = b ∧ _ = fs' := by simpa using h
    exact ⟨fun e ne => by simp only [Bcache.set_ne _ _ ne], by simp [(Bcache.slot_free slot).1], by simp, by simp⟩
  case h_3 => simp at h

theorem Inv.stop (h : Inv s) (e : Fault) : Inv { s with stopped := some e } :=
  ⟨fun b => ⟨(h.buf b).count, (h.buf b).fresh, (h.buf b).stored⟩,
    fun p => ⟨(h.proc p).got, (h.proc p).reading, (h.proc p).writing, (h.proc p).quiet⟩, h.once, h.intact⟩

/-- A held buffer is valid. -/
theorem Inv.held_valid (h : Inv s) (held : p ∈ s.holders b) : (s.fs.bcache b).valid = true := by
  by_contra invalid
  obtain ⟨none, -⟩ := (h.buf b).fresh (by simpa using invalid)
  simp [none] at held

/-- Nobody reads a held buffer. -/
theorem Inv.held_settled (h : Inv s) (held : p ∈ s.holders b) (q : P) : ¬ s.Reading q b := fun reading => by
  have := ((h.proc q).reading b reading).1
  simp [h.held_valid held] at this

theorem Inv.modify (h : Inv s) (held : p ∈ s.holders b) (x : Fin BUFSIZE) (v : BitVec 8) : Inv (s.modify b x v) := by
  have old := h.buf b
  have valid := h.held_valid held
  have valid' : ((s.modify b x v).fs.bcache b).valid = true := by simp [State.modify, valid]
  refine h.touch (p := p) (b := b) ⟨fun d ne => by simp only [State.modify, Bcache.set_ne _ _ ne], fun d ne => rfl,
    fun d ne => rfl, fun d ne => Function.update_of_ne ne .., fun q ne => rfl, fun q ne => rfl⟩ ⟨?_, ?_, ?_⟩ ⟨?_, ?_, ?_, ?_⟩
    (fun q ne mem => mem) (fun q ne mem => mem) ?_ (fun d reading => .inl reading) h.intact
  · simp only [State.modify, Bcache.set_self]
    exact old.count
  · intro invalid
    simp [valid'] at invalid
  · intro y w last
    simp only [State.modify, Function.update_self, Bcache.set_self] at last ⊢
    by_cases e : y = x
    · subst e
      simpa using last
    · rw [Function.update_of_ne e] at last ⊢
      exact old.stored y w last
  · exact (h.proc p).got
  · intro d reading
    obtain ⟨invalid, mem⟩ := (h.proc p).reading d reading
    have ne : d ≠ b := fun e => h.held_settled held p (e ▸ reading)
    exact ⟨by simp only [State.modify, Bcache.set_ne _ _ ne]; exact invalid, mem⟩
  · exact (h.proc p).writing
  · exact (h.proc p).quiet
  · exact fun q _ reading => absurd reading (h.held_settled held q)

variable [DecidableEq P]

theorem Inv.read (h : Inv s) (out : s.pc p = .out) (bno : BitVec 32) : Inv (s.read p bno) := by
  unfold State.read State.exec
  cases run : getBuf bno s.fs with
  | error e => exact h.stop e
  | ok r =>
    obtain ⟨b, fs⟩ := r
    obtain ⟨others, ref, valid, data⟩ := getBuf_took run
    have old := h.buf b
    have quiet := (h.proc p).quiet (.inl out)
    have idle : ∀ d, ¬ State.Reading (P := P) { s.go p (.got b bno) with
        fs := fs, readers := Function.update s.readers b (p :: s.readers b) } p d := by
      simp [State.Reading, State.go, quiet]
    refine h.touch (p := p) (b := b) ⟨others, fun d ne => rfl, fun d ne => Function.update_of_ne ne .., fun d ne => rfl,
      fun q ne => Function.update_of_ne ne .., fun q ne => rfl⟩ ⟨?_, ?_, ?_⟩ ⟨?_, ?_, ?_, ?_⟩ ?_ (fun q ne mem => mem) ?_ ?_ h.intact
    · have count := old.count
      simp only [Function.update_self, List.length_cons, ref, State.go]
      omega
    · simp only [valid]
      exact old.fresh
    · simp only [data]
      exact old.stored
    · intro d n pc
      simp only [State.go, Function.update_self, Pc.got.injEq] at pc
      rw [← pc.1]
      simp
    · exact fun d reading => absurd reading (idle d)
    · intro d pc
      simp [State.go] at pc
    · exact fun _ => quiet
    · intro q _ mem
      simp [mem]
    · intro q _ reading
      simp only [valid]
      exact ((h.proc q).reading b reading).1
    · exact fun d reading => absurd reading (idle d)

/-- A buffer is returned to a process that has looked at `valid`, or has set it. -/
theorem Inv.hand (h : Inv s) (reader : p ∈ s.readers b) (pend : s.pend p = none) (valid : (s.fs.bcache b).valid = true)
    (alone : ∀ q, q ≠ p → ¬ s.Reading q b) : Inv (s.hand p b) := by
  have old := h.buf b
  have idle : ∀ d, ¬ (s.hand p b).Reading p d := by simp [State.hand, State.Reading, State.go, pend]
  refine h.touch (p := p) (b := b) ⟨fun d ne => rfl, fun d ne => Function.update_of_ne ne .., fun d ne => Function.update_of_ne ne ..,
    fun d ne => rfl, fun q ne => Function.update_of_ne ne .., fun q ne => rfl⟩ ⟨?_, ?_, ?_⟩ ⟨?_, ?_, ?_, ?_⟩ ?_ ?_ ?_ ?_ h.intact
  · have count := old.count
    have pos := List.length_pos_of_mem reader
    simp only [State.hand, State.go, Function.update_self, List.length_cons, List.length_erase_of_mem reader]
    omega
  · intro invalid
    rw [show ((s.hand p b).fs.bcache b).valid = true from valid] at invalid
    simp at invalid
  · exact old.stored
  · intro d n pc
    simp [State.hand, State.go] at pc
  · exact fun d reading => absurd reading (idle d)
  · intro d pc
    simp [State.hand, State.go] at pc
  · exact fun _ => pend
  · intro q ne mem
    simp only [State.hand, Function.update_self]
    exact (List.mem_erase_of_ne ne).2 mem
  · intro q ne mem
    simp [State.hand, mem]
  · exact fun q ne reading => absurd reading (alone q ne)
  · exact fun d reading => absurd reading (idle d)

theorem Inv.test (h : Inv s) {bno : BitVec 32} (pc : s.pc p = .got b bno)
    (sole : (s.fs.bcache b).valid = false → ∀ q, ¬ s.Reading q b) : Inv (s.test p b bno) := by
  have reader := (h.proc p).got b bno pc
  have pend := (h.proc p).quiet (.inr ⟨b, bno, pc⟩)
  unfold State.test
  cases valid : (s.fs.bcache b).valid with
  | true =>
    refine h.hand reader pend valid fun q _ reading => ?_
    have := ((h.proc q).reading b reading).1
    simp [valid] at this
  | false =>
    have old := h.buf b
    have reads : ∀ d, (s.submit p (.reading b) { buf := b, bno := bno, op := .DREAD }).Reading p d → d = b := by
      rintro d (pc' | ⟨n, req⟩)
      · simpa [State.submit, State.go, eq_comm] using pc'
      · have := congrArg (Option.map Req.buf) req
        simpa [State.submit, eq_comm] using this
    refine h.touch (p := p) (b := b) ⟨fun d ne => rfl, fun d ne => rfl, fun d ne => rfl, fun d ne => rfl,
      fun q ne => Function.update_of_ne ne .., fun q ne => Function.update_of_ne ne ..⟩ ⟨old.count, old.fresh, old.stored⟩
      ⟨?_, ?_, ?_, ?_⟩ (fun q ne mem => mem) (fun q ne mem => mem) ?_ ?_ h.intact
    · intro d n pc'
      simp [State.submit, State.go] at pc'
    · intro d reading
      obtain rfl := reads d reading
      exact ⟨valid, reader⟩
    · intro d pc'
      simp [State.submit, State.go] at pc'
    · intro idle
      simp [State.submit, State.go] at idle
    · exact fun q _ reading => valid
    · intro d reading
      obtain rfl := reads d reading
      exact .inr (sole valid)

theorem Inv.write (h : Inv s) (held : p ∈ s.holders b) :
    Inv (s.submit p (.writing b) { buf := b, bno := (s.fs.bcache b).bno, op := .DWRITE }) := by
  have old := h.buf b
  have idle : ∀ d, ¬ (s.submit p (.writing b) { buf := b, bno := (s.fs.bcache b).bno, op := .DWRITE }).Reading p d := by
    simp [State.Reading, State.submit, State.go]
  refine h.touch (p := p) (b := b) ⟨fun d ne => rfl, fun d ne => rfl, fun d ne => rfl, fun d ne => rfl,
    fun q ne => Function.update_of_ne ne .., fun q ne => Function.update_of_ne ne ..⟩ ⟨old.count, old.fresh, old.stored⟩
    ⟨?_, fun d reading => absurd reading (idle d), ?_, ?_⟩ (fun q ne mem => mem) (fun q ne mem => mem)
    (fun q _ reading => absurd reading (h.held_settled held q)) (fun d reading => absurd reading (idle d)) h.intact
  · intro d n pc
    simp [State.submit, State.go] at pc
  · intro d pc
    obtain rfl : b = d := by simpa [State.submit, State.go] using pc
    exact held
  · intro pc
    simp [State.submit, State.go] at pc

theorem Inv.free (h : Inv s) (out : s.pc p = .out) (held : p ∈ s.holders b) : Inv (s.free p b) := by
  unfold State.free State.exec
  cases run : bioFree b s.fs with
  | error e => exact h.stop e
  | ok r =>
    obtain ⟨⟨⟩, fs⟩ := r
    have old := h.buf b
    have count := old.count
    have pos := List.length_pos_of_mem held
    simp only [bioFree] at run
    rw [if_neg (by omega)] at run
    obtain rfl : _ = fs := by simpa using run
    have quiet := (h.proc p).quiet (.inl out)
    -- the last reference is the only one
    have last : (s.fs.bcache b).ref = 1 → s.holders b = [p] ∧ s.readers b = [] := by
      intro one
      have len : (s.holders b).length = 1 := by omega
      obtain ⟨q, single⟩ := List.length_eq_one_iff.1 len
      refine ⟨?_, List.length_eq_zero_iff.1 (by omega)⟩
      rw [single] at held ⊢
      rw [List.mem_singleton.1 held]
    refine h.touch (p := p) (b := b) ⟨fun d ne => by simp only [Bcache.set_ne _ _ ne],
      fun d ne => Function.update_of_ne ne .., fun d ne => rfl, fun d ne => Function.update_of_ne ne .., fun q ne => rfl,
      fun q ne => rfl⟩ ⟨?_, ?_, ?_⟩ ⟨?_, ?_, ?_, ?_⟩ (fun q ne mem => mem) ?_
      (fun q _ reading => absurd reading (h.held_settled held q)) (fun d reading => .inl reading) h.intact
    · simp only [Bcache.set_self, Function.update_self, List.length_erase_of_mem held]
      split
      · simp only [Buf.zero_ref]
        omega
      · simp only
        omega
    · by_cases one : (s.fs.bcache b).ref = 1
      · simp [one, (last one).1]
      · intro invalid
        simp only [Bcache.set_self] at invalid
        rw [if_neg (by omega)] at invalid
        exact absurd ((h.held_valid held).symm.trans invalid) (by decide)
    · by_cases one : (s.fs.bcache b).ref = 1
      · simp [one]
      · simp only [Bcache.set_self, Function.update_self, if_neg one]
        rw [if_neg (by omega)]
        exact old.stored
    · intro d n pc
      simp [out] at pc
    · rintro d (pc | ⟨n, req⟩)
      · simp [out] at pc
      · simp [quiet] at req
    · intro d pc
      simp [out] at pc
    · exact fun _ => quiet
    · intro q ne mem
      simp only [Function.update_self]
      exact (List.mem_erase_of_ne ne).2 mem

/-- The device fills a buffer only for its reader, and sends what has been stored. -/
theorem Inv.transfer (h : Inv s) {r : Req} (pend : s.pend p = some r) : Inv (s.transfer p r) := by
  have old := h.buf r.buf
  have fades : ∀ q d, (s.transfer p r).Reading q d → s.Reading q d := by
    rintro q d (pc | ⟨n, req⟩)
    · exact .inl pc
    · refine .inr ⟨n, ?_⟩
      by_cases e : q = p
      · subst e
        simp [State.transfer] at req
      · simpa only [State.transfer, Function.update_of_ne e] using req
  have same : ∀ d, ((s.transfer p r).fs.bcache d).valid = (s.fs.bcache d).valid ∧
      ((s.transfer p r).fs.bcache d).ref = (s.fs.bcache d).ref := by
    intro d
    unfold State.transfer Req.transfer
    cases r.op with
    | DWRITE => exact ⟨rfl, rfl⟩
    | DREAD =>
      by_cases e : d = r.buf
      · subst e
        simp
      · simp [Bcache.set_ne _ _ e]
  -- a buffer that is filled has no holder, and nothing has been stored in it
  have filled : r.op = .DREAD → s.holders r.buf = [] ∧ ∀ x, s.stored r.buf x = none := fun op => by
    have reading : s.Reading p r.buf := .inr ⟨r.bno, by rw [pend, ← op]⟩
    exact old.fresh ((h.proc p).reading r.buf reading).1
  refine h.touch (p := p) (b := r.buf) ⟨fun d ne => ?_, fun d ne => rfl, fun d ne => rfl, fun d ne => rfl,
    fun q ne => rfl, fun q ne => Function.update_of_ne ne ..⟩ ⟨?_, ?_, ?_⟩ ⟨(h.proc p).got, ?_, (h.proc p).writing, ?_⟩
    (fun q ne mem => mem) (fun q ne mem => mem) ?_ (fun d reading => .inl (fades p d reading)) ⟨?_, ?_⟩
  · unfold State.transfer Req.transfer
    cases r.op with
    | DWRITE => rfl
    | DREAD => simp [Bcache.set_ne _ _ ne]
  · rw [(same r.buf).2]
    exact old.count
  · rw [(same r.buf).1]
    exact old.fresh
  · intro x v last
    cases op : r.op with
    | DWRITE =>
      have kept : (s.transfer p r).fs.bcache = s.fs.bcache := by simp only [State.transfer, Req.transfer, op]
      rw [kept]
      exact old.stored x v last
    | DREAD =>
      have nothing : s.stored r.buf x = some v := last
      simp [(filled op).2 x] at nothing
  · intro d reading
    obtain ⟨invalid, mem⟩ := (h.proc p).reading d (fades p d reading)
    exact ⟨by rw [(same d).1]; exact invalid, mem⟩
  · intro _
    simp [State.transfer]
  · intro q _ reading
    rw [(same r.buf).1]
    exact ((h.proc q).reading r.buf reading).1
  · intro b ps mem
    rcases List.mem_cons.1 mem with new | before
    · cases op : r.op with
      | DWRITE => simp [op] at new
      | DREAD =>
        obtain ⟨rfl, rfl⟩ : b = r.buf ∧ ps = s.holders r.buf := by simpa [op] using new
        exact (filled op).1
    · exact h.intact.filled b ps before
  · intro b data stored mem
    rcases List.mem_cons.1 mem with new | before
    · cases op : r.op with
      | DREAD => simp [op] at new
      | DWRITE =>
        obtain ⟨rfl, rfl, rfl⟩ : b = r.buf ∧ data = (s.fs.bcache r.buf).data ∧ stored = s.stored r.buf := by
          simpa [op] using new
        exact old.stored
    · exact h.intact.sent b data stored before

/-- A process leaves `virtio_blk_op`, with its request carried out or not at all. -/
theorem Inv.go (h : Inv s) {pc : Pc} (leaves : pc = .dead ∨ pc = .out ∧ s.pend p = none) : Inv (s.go p pc) := by
  have idle : ∀ b, pc ≠ .reading b ∧ pc ≠ .writing b ∧ ∀ bno, pc ≠ .got b bno := fun b => by
    rcases leaves with rfl | ⟨rfl, -⟩ <;> simp
  have fades : ∀ d, (s.go p pc).Reading p d → s.Reading p d := by
    rintro d (at_d | ⟨n, req⟩)
    · exact absurd (by simpa [State.go] using at_d) (idle d).1
    · exact .inr ⟨n, req⟩
  refine h.touch (p := p) (b := 0) ⟨fun d ne => rfl, fun d ne => rfl, fun d ne => rfl, fun d ne => rfl,
    fun q ne => Function.update_of_ne ne .., fun q ne => rfl⟩ ⟨(h.buf 0).count, (h.buf 0).fresh, (h.buf 0).stored⟩
    ⟨fun d n at_d => ?_, fun d reading => (h.proc p).reading d (fades d reading), fun d at_d => ?_, fun at_out => ?_⟩
    (fun q ne mem => mem) (fun q ne mem => mem) (fun q _ reading => ((h.proc q).reading 0 reading).1)
    (fun d reading => .inl (fades d reading)) h.intact
  · exact absurd (by simpa [State.go] using at_d) ((idle d).2.2 n)
  · exact absurd (by simpa [State.go] using at_d) (idle d).2.1
  · rcases leaves with rfl | ⟨-, pend⟩
    · simp [State.go] at at_out
    · exact pend

omit [DecidableEq P] in
/-- `b->valid = 1`, when nobody reads the buffer. -/
theorem Inv.validate (h : Inv s) (settled : ∀ q, ¬ s.Reading q b) : Inv (s.validate b) := by
  have old := h.buf b
  refine ⟨fun d => ?_, fun q => ⟨(h.proc q).got, fun d reading => ?_, (h.proc q).writing, (h.proc q).quiet⟩, h.once, h.intact⟩
  · by_cases e : d = b
    · subst e
      exact ⟨by simpa [State.validate] using old.count, by simp [State.validate], by simpa [State.validate] using old.stored⟩
    · refine ⟨?_, ?_, ?_⟩ <;> simp only [State.validate, Bcache.set_ne _ _ e]
      · exact (h.buf d).count
      · exact (h.buf d).fresh
      · exact (h.buf d).stored
  · obtain ⟨invalid, mem⟩ := (h.proc q).reading d reading
    have ne : d ≠ b := fun e => settled q (e ▸ reading)
    exact ⟨by simp only [State.validate, Bcache.set_ne _ _ ne]; exact invalid, mem⟩

/-- The reader of a buffer sets `valid` and is returned the buffer. -/
theorem Inv.read_done (h : Inv s) (pend : s.pend p = none) (pc : s.pc p = .reading b) : Inv ((s.validate b).hand p b) := by
  have reading : s.Reading p b := .inl pc
  obtain ⟨-, reader⟩ := (h.proc p).reading b reading
  have left := h.go (p := p) (.inr ⟨rfl, pend⟩)
  have settled : ∀ q, ¬ (s.go p .out).Reading q b := by
    intro q reads
    by_cases e : q = p
    · subst e
      simp [State.Reading, State.go, pend] at reads
    · refine e (h.once q p b ?_ reading)
      simpa only [State.Reading, State.go, Function.update_of_ne e] using reads
  have valid : (((s.go p .out).validate b).fs.bcache b).valid = true := by simp [State.validate]
  have handed := (left.validate settled).hand reader pend valid fun q _ => settled q
  have same : ((s.go p .out).validate b).hand p b = (s.validate b).hand p b := by
    simp [State.hand, State.go, State.validate]
  rwa [same] at handed

/-- The writer of a buffer sets `valid` again. -/
theorem Inv.write_done (h : Inv s) (pend : s.pend p = none) (pc : s.pc p = .writing b) : Inv ((s.validate b).go p .out) :=
  (h.validate (h.held_settled ((h.proc p).writing b pc))).go (.inr ⟨rfl, pend⟩)

/-- Every step keeps the invariant, as long as who finds a buffer not valid is the only one to read it. -/
theorem Inv.step (h : Inv s) {a : Label P} (sole : SoleReader s a) (step : s.step a = some t) : Inv t := by
  unfold State.step at step
  split at step
  · simp at step
  cases a with
  | read p bno =>
    simp only at step
    split at step
    · rename_i out
      obtain rfl := Option.some.inj step
      exact h.read out bno
    · simp at step
  | test p =>
    simp only at step
    split at step
    · rename_i b bno pc
      obtain rfl := Option.some.inj step
      exact h.test pc (sole b bno pc)
    · simp at step
  | modify p b x v =>
    simp only at step
    split at step
    · split at step
      · rename_i held
        obtain rfl := Option.some.inj step
        exact h.modify held x v
      · simp at step
    · simp at step
  | write p b =>
    simp only at step
    split at step
    · split at step
      · rename_i held
        obtain rfl := Option.some.inj step
        exact h.write held
      · simp at step
    · simp at step
  | free p b =>
    simp only at step
    split at step
    · rename_i out
      split at step
      · rename_i held
        obtain rfl := Option.some.inj step
        exact h.free out held
      · simp at step
    · simp at step
  | transfer p =>
    obtain ⟨r, pend, rfl⟩ := Option.map_eq_some_iff.1 step
    exact h.transfer pend
  | done p =>
    simp only at step
    split at step
    · simp at step
    · rename_i pend
      have pend : s.pend p = none := by simpa using pend
      split at step
      · rename_i b pc
        obtain rfl := Option.some.inj step
        exact h.read_done pend pc
      · rename_i b pc
        obtain rfl := Option.some.inj step
        exact h.write_done pend pc
      · simp at step
  | kill p =>
    simp only at step
    split at step
    · obtain rfl := Option.some.inj step
      exact h.go (.inl rfl)
    · obtain rfl := Option.some.inj step
      exact h.go (.inl rfl)
    · simp at step

omit [DecidableEq P] in
theorem Inv.boot (disk : BitVec 32 → Block) : Inv (State.boot (P := P) disk) where
  buf b := ⟨rfl, by simp [State.boot], by simp [State.boot]⟩
  proc p := ⟨by simp [State.boot], by simp [State.boot, State.Reading], by simp [State.boot], by simp [State.boot]⟩
  once := by simp [State.boot, State.Reading]
  intact := ⟨by simp [State.boot], by simp [State.boot]⟩

/-- **The buffer cache.** In a run where whoever finds a buffer not valid is its only
reader, no disk read fills a buffer somebody holds, and every write sends every byte the
holders have stored. -/
theorem sole_reader_loses_nothing (s : State P) (run : (bufSystem P).Via SoleReader s) : Intact s.log := by
  have start : ∀ s, (bufSystem P).init s → Inv s := by
    rintro s ⟨disk, rfl⟩
    exact Inv.boot disk
  exact (run.invariant start fun _ _ _ h sole step => h.step sole step).intact

end Invariant

/-- One process reads block 5, stores a byte and writes the block; another then reads the
buffer it still holds. -/
theorem sole_reader_loses_nothing_shared :
    ∃ s, (bufSystem Bool).Via SoleReader s ∧ s.holders 0 = [true, false] ∧ s.log.length = 2 ∧ Intact s.log := by
  obtain ⟨s, t, u, v, read, test, rest, again, pc, pend, got, valid, held, log⟩ : ∃ s t u v : State Bool,
      (bufSystem Bool).run (State.boot fun _ _ => 0) [.read false 5] = some s ∧
      (bufSystem Bool).step s (.test false) = some t ∧
      (bufSystem Bool).run t [.transfer false, .done false, .modify false 0 0 1, .write false 0, .transfer false,
        .done false, .read true 5] = some u ∧
      (bufSystem Bool).step u (.test true) = some v ∧
      (s.pc = Function.update (fun _ => .out) false (.got 0 5)) ∧ (s.pend = fun _ => none) ∧
      u.pc true = .got 0 5 ∧ (u.fs.bcache 0).valid = true ∧ v.holders 0 = [true, false] ∧ v.log.length = 2 :=
    ⟨_, _, _, _, rfl, rfl, rfl, rfl, rfl, rfl, rfl, rfl, rfl, rfl⟩
  have booted : (bufSystem Bool).init (State.boot fun _ _ => 0) := ⟨_, rfl⟩
  have first : (bufSystem Bool).Via SoleReader s := (System.Via.init booted).run_of (by simp [SoleReader]) read
  have nobody : SoleReader s (.test false) := by
    intro b bno _ _ q
    cases q <;> simp [State.Reading, pc, pend, Function.update]
  have shared : (bufSystem Bool).Via SoleReader u := (System.Via.step first nobody test).run_of (by simp [SoleReader]) rest
  have found : SoleReader u (.test true) := by
    intro b bno pc' invalid
    obtain ⟨rfl, -⟩ : 0 = b ∧ 5 = bno := by simpa [got] using pc'
    simp [valid] at invalid
  have via := System.Via.step shared found again
  exact ⟨v, via, held, log, sole_reader_loses_nothing v via⟩

/-- A second reader finds the buffer not valid before the first has read it; its read comes
after the first has stored a byte, and the write of the first sends the old byte. -/
theorem second_reader_loses_byte :
    ∃ s data stored, (bufSystem Bool).Reach s ∧ Event.filled 0 [false] ∈ s.log ∧ Event.sent 0 data stored ∈ s.log ∧
      stored 0 = some 1 ∧ data 0 = 0 ∧ ¬ Intact s.log := by
  obtain ⟨s, data, stored, run, log, one, zero⟩ : ∃ s data stored, (bufSystem Bool).run (State.boot fun _ _ => 0)
      [.read false 5, .read true 5, .test false, .test true, .transfer false, .done false, .modify false 0 0 1,
        .transfer true, .write false 0, .transfer false] = some s ∧
      s.log = [.sent 0 data stored, .filled 0 [false], .filled 0 []] ∧ stored 0 = some 1 ∧ data 0 = 0 :=
    ⟨_, _, _, rfl, rfl, rfl, rfl⟩
  have booted : (bufSystem Bool).init (State.boot fun _ _ => 0) := ⟨_, rfl⟩
  refine ⟨s, data, stored, (System.Via.init booted).run run, by simp [log], by simp [log], one, zero, fun intact => ?_⟩
  have empty := intact.filled 0 [false] (by simp [log])
  simp at empty

end Aarch64Os.Kernel.Sharing
