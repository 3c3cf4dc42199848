import Mathlib
import Aarch64Os.Base.OpenStore
import Aarch64Os.Kernel.Ext2.Super

/-!
# Handles of buffers (`kernel/buf.c`)

One thread calls `bio_read`, `bio_write`, `bio_dup` and `bio_free` and keeps the pointers it
has been returned. `ref` is a `u32`, so after each call the counters are taken modulo `2 ^ 32`.
A cleared buffer has block number 0 like one held for block 0, and `get_buf` looks at numbers
before it looks at `ref`.
-/

namespace Aarch64Os.Kernel.Handles
set_option autoImplicit false
open Base

/-- What the thread calls; a pointer is named by its place among those it holds. -/
abbrev Call := StoreCall (BitVec 32) Block

/-- The counters of the buffers are 32 bits wide. -/
def wrap (s : Fs) : Fs :=
  { s with bcache := fun b => { s.bcache b with ref := (s.bcache b).ref % 2 ^ 32 } }

/-- The kernel and the thread: the pointers it holds, what `bio_read` has returned to it, the
last first, and the fault that has stopped the machine. -/
structure State where
  fs : Fs
  handles : List BufId
  seen : List Block
  stopped : Option Fault

/-- After `buf_init`, with any disk. -/
def State.boot (disk : BitVec 32 → Block) : State where
  fs := Fs.boot disk
  handles := []
  seen := []
  stopped := none

/-- Run a function of the kernel. -/
def State.call {α : Type} (s : State) (f : FsM α) (k : α → Fs → State) : State :=
  match f s.fs with
  | .ok (a, fs) => k a (wrap fs)
  | .error e => { s with stopped := some e }

/-- A call of the thread. It passes only pointers it holds. -/
def State.step (s : State) (c : Call) : Option State :=
  if s.stopped.isSome then none
  else
    match c with
    | .read bno => some (s.call (bioRead bno) fun b fs =>
        { s with fs := fs, handles := b :: s.handles, seen := (fs.bcache b).data :: s.seen })
    | .modify h data => s.handles[h]?.map fun b => s.call (setBufData b data) fun _ fs => { s with fs := fs }
    | .write h => s.handles[h]?.map fun b => s.call (bioWrite b) fun _ fs => { s with fs := fs }
    | .dup h => s.handles[h]?.map fun b => s.call (bioDup b) fun d fs => { s with fs := fs, handles := d :: s.handles }
    | .free h => s.handles[h]?.map fun b =>
        s.call (bioFree b) fun _ fs => { s with fs := fs, handles := s.handles.eraseIdx h }

/-- One thread using the buffer cache. -/
def handleSystem : System State Call where
  init s := ∃ disk, s = State.boot disk
  step := State.step

/-- Each block number is held by one buffer at most, and each buffer counts the pointers to it. -/
structure Unique (s : State) : Prop where
  once : ∀ b d, (s.fs.bcache b).ref ≠ 0 → (s.fs.bcache d).ref ≠ 0 → (s.fs.bcache b).bno = (s.fs.bcache d).bno → b = d
  count : ∀ b, (s.fs.bcache b).ref = s.handles.count b

/-- The buffer that `get_buf` finds by its number is the only one held for that number, and
one more pointer to a buffer does not overflow its counter. -/
def Finds (s : State) : Call → Prop
  | .read bno => ∀ b, s.fs.bcache.slot bno = some (b, true) →
      (∀ d, (s.fs.bcache d).ref ≠ 0 → (s.fs.bcache d).bno = bno → d = b) ∧ (s.fs.bcache b).ref + 1 < 2 ^ 32
  | .dup h => ∀ b, s.handles[h]? = some b → (s.fs.bcache b).ref + 1 < 2 ^ 32
  | _ => True

/-- The state of the cache between two calls: buffers are cleared when the last pointer goes. -/
structure Inv (s : State) : Prop extends Unique s where
  clear : ∀ b, (s.fs.bcache b).ref = 0 → s.fs.bcache b = Buf.zero
  small : ∀ b, (s.fs.bcache b).ref < 2 ^ 32

theorem wrap_eq {s : Fs} (small : ∀ b, (s.bcache b).ref < 2 ^ 32) : wrap s = s := by
  have same : (fun b => { s.bcache b with ref := (s.bcache b).ref % 2 ^ 32 }) = s.bcache := by
    funext b
    rw [Nat.mod_eq_of_lt (small b)]
  rw [wrap, same]

@[simp] theorem wrap_disk (s : Fs) : (wrap s).disk = s.disk := rfl

theorem wrap_bcache (s : Fs) (b : BufId) : (wrap s).bcache b = { s.bcache b with ref := (s.bcache b).ref % 2 ^ 32 } := rfl

/-- The pointers to a buffer when one of them goes. -/
theorem count_eraseIdx {l : List BufId} {h : Nat} {b : BufId} (at_h : l[h]? = some b) (d : BufId) :
    l.count d = (l.eraseIdx h).count d + if b = d then 1 else 0 := by
  obtain ⟨lt, rfl⟩ := List.getElem?_eq_some_iff.1 at_h
  rw [← (List.getElem_cons_eraseIdx_perm lt).count_eq d, List.count_cons]
  simp only [beq_iff_eq]

section Calls
variable {s t : State} {b d : BufId} {bno : BitVec 32}

/-- A buffer somebody points to is in use. -/
theorem Unique.held (u : Unique s) (mem : b ∈ s.handles) : (s.fs.bcache b).ref ≠ 0 := by
  rw [u.count b]
  exact (List.count_pos_iff.2 mem).ne'

theorem Unique.mem (u : Unique s) (used : (s.fs.bcache b).ref ≠ 0) : b ∈ s.handles := by
  rw [u.count b] at used
  exact List.count_pos_iff.1 (Nat.pos_of_ne_zero used)

/-- What a read leaves in the buffer it returns. -/
def taken (s : Fs) (b : BufId) (bno : BitVec 32) : Fs :=
  { s with bcache := s.bcache.set b fun x =>
      { data := if x.valid then x.data else s.disk bno, bno := bno, ref := x.ref + 1, valid := true } }

/-- `bio_read` with a slot for the block. -/
theorem bioRead_taken {fs : Fs} {held : Bool} (slot : fs.bcache.slot bno = some (b, held)) :
    bioRead bno fs = .ok (b, taken fs b bno) := by
  cases held with
  | true =>
    have own := Bcache.slot_held slot
    have got : getBuf bno fs = .ok (b, { fs with bcache := fs.bcache.set b fun x => { x with ref := x.ref + 1 } }) := by
      simp [getBuf, slot]
    rw [bioRead, FsM.bind_of_ok got, FsM.bind_of_ok FsM.get_run]
    cases valid : (fs.bcache b).valid <;> simp [taken, valid, own, bind, StateT.bind, Except.bind, Bcache.set]
  | false =>
    have free := (Bcache.slot_free slot).1
    have got : getBuf bno fs = .ok (b, { fs with bcache := fs.bcache.set b fun x => { x with ref := 1, bno := bno } }) := by
      simp [getBuf, slot]
    rw [bioRead, FsM.bind_of_ok got, FsM.bind_of_ok FsM.get_run]
    cases valid : (fs.bcache b).valid <;> simp [taken, valid, free, bind, StateT.bind, Except.bind, Bcache.set]

/-- `bio_read` without one. -/
theorem bioRead_panics {fs : Fs} (none : fs.bcache.slot bno = none) : bioRead bno fs = .error (.panic "buf") := by
  simp [bioRead, bind, StateT.bind, Except.bind, getBuf, none]

theorem taken_self (fs : Fs) (b : BufId) (bno : BitVec 32) : (taken fs b bno).bcache b =
    { data := if (fs.bcache b).valid then (fs.bcache b).data else fs.disk bno, bno := bno, ref := (fs.bcache b).ref + 1,
      valid := true } := by
  simp only [taken, Bcache.set_self]

theorem taken_ne (fs : Fs) (bno : BitVec 32) (ne : d ≠ b) : (taken fs b bno).bcache d = fs.bcache d := by
  simp only [taken, Bcache.set_ne _ _ ne]

end Calls

section Keep
variable {s : State} {b : BufId} {bno : BitVec 32} {h : Nat}

/-- One buffer changes, and its number only if it is the one held for it. -/
theorem Inv.change (inv : Inv s) {fs : Fs} {handles : List BufId} {seen : List Block}
    (others : ∀ d, d ≠ b → fs.bcache d = s.fs.bcache d ∧ handles.count d = s.handles.count d)
    (count : (fs.bcache b).ref = handles.count b) (small : (fs.bcache b).ref < 2 ^ 32)
    (clear : (fs.bcache b).ref = 0 → fs.bcache b = Buf.zero)
    (alone : (fs.bcache b).ref ≠ 0 → ∀ d, d ≠ b → (s.fs.bcache d).ref ≠ 0 → (s.fs.bcache d).bno ≠ (fs.bcache b).bno) :
    Inv { s with fs := wrap fs, handles := handles, seen := seen } := by
  have low : ∀ d, (fs.bcache d).ref < 2 ^ 32 := by
    intro d
    rcases eq_or_ne d b with same | ne
    · rw [same]
      exact small
    · rw [(others d ne).1]
      exact inv.small d
  rw [wrap_eq low]
  refine ⟨⟨fun d e used used' own => ?_, fun d => ?_⟩, fun d free => ?_, low⟩
  · rcases eq_or_ne d b with at_d | ne <;> rcases eq_or_ne e b with at_e | ne'
    · exact at_d.trans at_e.symm
    · subst at_d
      simp only [(others e ne').1] at used' own
      exact absurd own.symm (alone used e ne' used')
    · subst at_e
      simp only [(others d ne).1] at used own
      exact absurd own (alone used' d ne used)
    · simp only [(others d ne).1] at used own
      simp only [(others e ne').1] at used' own
      exact inv.once d e used used' own
  · rcases eq_or_ne d b with same | ne
    · rw [same]
      exact count
    · show (fs.bcache d).ref = _
      rw [(others d ne).1, (others d ne).2]
      exact inv.count d
  · rcases eq_or_ne d b with same | ne
    · subst same
      exact clear free
    · simp only [(others d ne).1] at free ⊢
      exact inv.clear d free

/-- One more pointer to a buffer. -/
theorem Inv.push (inv : Inv s) {fs : Fs} {seen : List Block} (others : ∀ d, d ≠ b → fs.bcache d = s.fs.bcache d)
    (more : (fs.bcache b).ref = (s.fs.bcache b).ref + 1) (small : (s.fs.bcache b).ref + 1 < 2 ^ 32)
    (alone : ∀ d, d ≠ b → (s.fs.bcache d).ref ≠ 0 → (s.fs.bcache d).bno ≠ (fs.bcache b).bno) :
    Inv { s with fs := wrap fs, handles := b :: s.handles, seen := seen } := by
  apply inv.change (b := b)
  · intro d ne
    exact ⟨others d ne, by rw [List.count_cons_of_ne ne.symm]⟩
  · rw [more, List.count_cons_self, inv.count b]
  · rw [more]
    exact small
  · rw [more]
    exact fun free => absurd free (Nat.succ_ne_zero _)
  · exact fun _ => alone

/-- What `get_buf` finds is held for the block already, or is free while no other buffer is
held for it. -/
theorem Finds.alone {held : Bool} (slot : s.fs.bcache.slot bno = some (b, held)) (finds : Finds s (.read bno)) :
    ∀ d, d ≠ b → (s.fs.bcache d).ref ≠ 0 → (s.fs.bcache d).bno ≠ bno := by
  intro d ne used own
  cases held with
  | true => exact ne ((finds b slot).1 d used own)
  | false => exact (Bcache.slot_free slot).2 d own

theorem Finds.small {held : Bool} (slot : s.fs.bcache.slot bno = some (b, held)) (finds : Finds s (.read bno)) :
    (s.fs.bcache b).ref + 1 < 2 ^ 32 := by
  cases held with
  | true => exact (finds b slot).2
  | false =>
    rw [(Bcache.slot_free slot).1]
    decide

/-- A pointer that is held is to a buffer with its own number, and goes on being so. -/
theorem Inv.alone_held (inv : Inv s) (mem : b ∈ s.handles) :
    ∀ d, d ≠ b → (s.fs.bcache d).ref ≠ 0 → (s.fs.bcache d).bno ≠ (s.fs.bcache b).bno :=
  fun d ne used own => ne (inv.once d b used (inv.held mem) own)

/-- The data of a buffer that is held may change. -/
theorem Inv.data (inv : Inv s) (mem : b ∈ s.handles) {fs : Fs} (others : ∀ d, d ≠ b → fs.bcache d = s.fs.bcache d)
    (ref : (fs.bcache b).ref = (s.fs.bcache b).ref) (bno : (fs.bcache b).bno = (s.fs.bcache b).bno) :
    Inv { s with fs := wrap fs } := by
  apply inv.change (b := b)
  · exact fun d ne => ⟨others d ne, rfl⟩
  · rw [ref]
    exact inv.count b
  · rw [ref]
    exact inv.small b
  · rw [ref]
    exact fun free => absurd free (inv.held mem)
  · rw [bno]
    exact fun _ => inv.alone_held mem

/-- One pointer less. -/
theorem Inv.pop (inv : Inv s) (at_h : s.handles[h]? = some b) {fs : Fs} (run : bioFree b s.fs = .ok ((), fs)) :
    Inv { s with fs := wrap fs, handles := s.handles.eraseIdx h } := by
  have mem := List.mem_of_getElem? at_h
  have used := inv.held mem
  have count := count_eraseIdx at_h
  have left : (s.fs.bcache b).ref = (s.handles.eraseIdx h).count b + 1 := by
    rw [inv.count b, count b, if_pos rfl]
  unfold bioFree at run
  rw [if_neg used] at run
  cases run
  apply inv.change (b := b)
  · intro d ne
    refine ⟨by simp only [Bcache.set_ne _ _ ne], ?_⟩
    rw [count d, if_neg ne.symm, Nat.add_zero]
  all_goals simp only [Bcache.set_self]
  · split
    case isTrue last => rw [Buf.zero_ref]; omega
    case isFalse more => show (s.fs.bcache b).ref - 1 = _; omega
  · have := inv.small b
    split
    case isTrue last => rw [Buf.zero_ref]; decide
    case isFalse more => show (s.fs.bcache b).ref - 1 < _; omega
  · split
    case isTrue last => exact fun _ => rfl
    case isFalse more => exact fun free => absurd free more
  · split
    case isTrue last => exact fun free => absurd Buf.zero_ref free
    case isFalse more => exact fun _ => inv.alone_held mem

end Keep

section Run
variable {s t : State} {c : Call} {b : BufId} {bno : BitVec 32} {h : Nat}

/-- A fault changes nothing but the machine's running. -/
theorem Inv.stop (inv : Inv s) (e : Fault) : Inv { s with stopped := some e } :=
  ⟨⟨inv.once, inv.count⟩, inv.clear, inv.small⟩

/-- What a call does: the machine stops, or the call returns. -/
inductive Does (s : State) : Call → State → Prop
  | full (bno : BitVec 32) : s.fs.bcache.slot bno = none → Does s (.read bno) { s with stopped := some (.panic "buf") }
  | unheld (h : Nat) (e : Fault) : Does s (.free h) { s with stopped := some e }
  | read (b : BufId) (bno : BitVec 32) (held : Bool) : s.fs.bcache.slot bno = some (b, held) →
      Does s (.read bno) { s with fs := wrap (taken s.fs b bno), handles := b :: s.handles,
                                  seen := ((taken s.fs b bno).bcache b).data :: s.seen }
  | modify (b : BufId) (h : Nat) (data : Block) : s.handles[h]? = some b →
      Does s (.modify h data)
        { s with fs := wrap { s.fs with bcache := s.fs.bcache.set b fun x => { x with data := data } } }
  | write (b : BufId) (h : Nat) : s.handles[h]? = some b →
      Does s (.write h)
        { s with fs := wrap { s.fs with
          disk := Function.update s.fs.disk (s.fs.bcache b).bno (s.fs.bcache b).data
          bcache := s.fs.bcache.set b fun x => { x with valid := true } } }
  | dup (b : BufId) (h : Nat) : s.handles[h]? = some b →
      Does s (.dup h)
        { s with fs := wrap { s.fs with bcache := s.fs.bcache.set b fun x => { x with ref := x.ref + 1 } },
                 handles := b :: s.handles }
  | free (b : BufId) (h : Nat) (fs : Fs) : s.handles[h]? = some b → bioFree b s.fs = .ok ((), fs) →
      Does s (.free h) { s with fs := wrap fs, handles := s.handles.eraseIdx h }

/-- The one look at the code of the calls. -/
theorem State.step_inv (step : s.step c = some t) : s.stopped = none ∧ Does s c t := by
  unfold State.step at step
  split at step
  case isTrue => cases step
  case isFalse running =>
  refine ⟨by simpa using running, ?_⟩
  cases c with
  | read bno =>
    cases step
    cases slot : s.fs.bcache.slot bno with
    | none =>
      simp only [State.call, bioRead_panics slot]
      exact .full bno slot
    | some p =>
      obtain ⟨b, held⟩ := p
      simp only [State.call, bioRead_taken slot]
      exact .read b bno held slot
  | modify h data =>
    obtain ⟨b, at_h, rfl⟩ := Option.map_eq_some_iff.1 step
    exact .modify b h data at_h
  | write h =>
    obtain ⟨b, at_h, rfl⟩ := Option.map_eq_some_iff.1 step
    exact .write b h at_h
  | dup h =>
    obtain ⟨b, at_h, rfl⟩ := Option.map_eq_some_iff.1 step
    exact .dup b h at_h
  | free h =>
    obtain ⟨b, at_h, rfl⟩ := Option.map_eq_some_iff.1 step
    cases run : bioFree b s.fs with
    | error e =>
      simp only [State.call, run]
      exact .unheld h e
    | ok r =>
      simp only [State.call, run]
      exact .free b h r.2 at_h run

/-- Every call keeps the invariant, if `get_buf` finds the right buffer and no counter overflows. -/
theorem Inv.step (inv : Inv s) (finds : Finds s c) (step : s.step c = some t) : Inv t := by
  cases (State.step_inv step).2 with
  | full bno slot => exact inv.stop _
  | unheld h e => exact inv.stop e
  | read b bno held slot =>
    apply inv.push
    · exact fun d ne => taken_ne _ _ ne
    · rw [taken_self]
    · exact Finds.small slot finds
    · rw [taken_self]
      exact Finds.alone slot finds
  | modify b h data at_h =>
    apply inv.data (List.mem_of_getElem? at_h)
    · exact fun d ne => by simp only [Bcache.set_ne _ _ ne]
    · simp only [Bcache.set_self]
    · simp only [Bcache.set_self]
  | write b h at_h =>
    apply inv.data (List.mem_of_getElem? at_h)
    · exact fun d ne => by simp only [Bcache.set_ne _ _ ne]
    · simp only [Bcache.set_self]
    · simp only [Bcache.set_self]
  | dup b h at_h =>
    apply inv.push
    · exact fun d ne => by simp only [Bcache.set_ne _ _ ne]
    · simp only [Bcache.set_self]
    · exact finds b at_h
    · simp only [Bcache.set_self]
      exact inv.alone_held (List.mem_of_getElem? at_h)
  | free b h fs at_h run => exact inv.pop at_h run

theorem Inv.boot (disk : BitVec 32 → Block) : Inv (State.boot disk) where
  once _ _ used := absurd rfl used
  count _ := rfl
  clear _ _ := rfl
  small _ := Nat.two_pow_pos 32

theorem Inv.via (run : handleSystem.Via Finds s) : Inv s := by
  apply run.invariant
  · rintro s ⟨disk, rfl⟩
    exact Inv.boot disk
  · intro s c t inv finds step
    exact inv.step finds step

/-- A read of a block that is held. -/
theorem Inv.finds_held (inv : Inv s) (slot : s.fs.bcache.slot bno = some (b, true)) (used : (s.fs.bcache b).ref ≠ 0)
    (small : (s.fs.bcache b).ref + 1 < 2 ^ 32) : Finds s (.read bno) := by
  intro d found
  obtain rfl : b = d := by simpa [slot] using found
  exact ⟨fun e used' own => inv.once e b used' used (own.trans (Bcache.slot_held slot).symm), small⟩

/-- A read of a block for which a buffer is taken that has another number. -/
theorem finds_fresh (slot : s.fs.bcache.slot bno = some (b, false)) : Finds s (.read bno) := by
  intro d found
  rw [slot] at found
  cases found

/-- After a call that breaks the condition, two buffers are held for one block, or a counter is
not the number of its pointers. -/
theorem Inv.finds (inv : Inv s) (step : s.step c = some t) (unique : Unique t) : Finds s c := by
  cases (State.step_inv step).2 with
  | full bno slot =>
    intro b found
    rw [slot] at found
    cases found
  | read b bno held slot =>
    intro d found
    obtain ⟨rfl, rfl⟩ : b = d ∧ held = true := by simpa [slot] using found
    have count := unique.count b
    simp only [wrap_bcache, taken_self, List.count_cons_self, ← inv.count b] at count
    have small : (s.fs.bcache b).ref + 1 < 2 ^ 32 := by
      rw [← count]
      exact Nat.mod_lt _ (Nat.two_pow_pos 32)
    refine ⟨fun e used own => ?_, small⟩
    by_contra ne
    apply ne
    apply unique.once
    · simp only [wrap_bcache, taken_ne _ _ ne, Nat.mod_eq_of_lt (inv.small e)]
      exact used
    · simp only [wrap_bcache, taken_self, Nat.mod_eq_of_lt small]
      exact Nat.succ_ne_zero _
    · simp only [wrap_bcache, taken_ne _ _ ne, taken_self]
      exact own
  | modify b h data at_h => trivial
  | write b h at_h => trivial
  | dup b h at_h =>
    intro d at_h'
    obtain rfl : b = d := Option.some.inj (at_h.symm.trans at_h')
    have count := unique.count b
    simp only [wrap_bcache, Bcache.set_self, List.count_cons_self, ← inv.count b] at count
    rw [← count]
    exact Nat.mod_lt _ (Nat.two_pow_pos 32)
  | free b h fs at_h run => trivial
  | unheld h e => trivial

end Run

/-- **Handles.** In a run where `get_buf` only finds the one buffer held for a number, and no
counter overflows, each block number is held by one buffer at most, which counts the pointers
to it. The first call that breaks the condition breaks this. -/
theorem handles_are_counted_iff (s : State) (run : handleSystem.Via Finds s) :
    Unique s ∧ ∀ c t, s.step c = some t → (Unique t ↔ Finds s c) :=
  have inv := Inv.via run
  ⟨inv.toUnique, fun _ _ step => ⟨inv.finds step, fun finds => (inv.step finds step).toUnique⟩⟩

/-- Two pointers to the buffer of block 0, and one to that of block 5. -/
theorem handles_are_counted_iff_zero : ∃ s, handleSystem.Via Finds s ∧ s.handles = [1, 0, 0] ∧ Unique s := by
  obtain ⟨s, t, u, first, second, third, handles, at_zero, count, at_five⟩ : ∃ s t u,
      (State.boot fun _ _ => 0).step (.read 0) = some s ∧ s.step (.read 0) = some t ∧ t.step (.read 5) = some u ∧
      u.handles = [1, 0, 0] ∧ s.fs.bcache.slot 0 = some (0, true) ∧ (s.fs.bcache 0).ref = 1 ∧
      t.fs.bcache.slot 5 = some (1, false) :=
    ⟨_, _, _, rfl, rfl, rfl, rfl, rfl, rfl, rfl⟩
  have booted : handleSystem.Via Finds (State.boot fun _ _ => 0) := .init ⟨_, rfl⟩
  have free : Finds (State.boot fun _ _ => 0) (.read 0) := fun _ _ => ⟨fun _ used => absurd rfl used, Nat.one_lt_two_pow (by decide)⟩
  have one := System.Via.step booted free first
  have held : Finds s (.read 0) := (Inv.via one).finds_held at_zero (by omega) (by omega)
  have two := System.Via.step one held second
  have three := System.Via.step two (finds_fresh at_five) third
  exact ⟨u, three, handles, (handles_are_counted_iff u three).1⟩

/-- A buffer is cleared in front of the one held for block 0: the next read of block 0 takes it. -/
theorem block_zero_held_twice : ∃ s, handleSystem.Reach s ∧ s.handles = [0, 1] ∧ s.stopped = none ∧
    (s.fs.bcache 0).ref ≠ 0 ∧ (s.fs.bcache 1).ref ≠ 0 ∧ (s.fs.bcache 0).bno = 0 ∧ (s.fs.bcache 1).bno = 0 ∧ ¬ Unique s := by
  obtain ⟨s, run, handles, running, used, used', own, own'⟩ : ∃ s, handleSystem.run (State.boot fun _ _ => 0)
      [.read 5, .read 0, .free 1, .read 0] = some s ∧ s.handles = [0, 1] ∧ s.stopped = none ∧
      (s.fs.bcache 0).ref = 1 ∧ (s.fs.bcache 1).ref = 1 ∧ (s.fs.bcache 0).bno = 0 ∧ (s.fs.bcache 1).bno = 0 :=
    ⟨_, rfl, rfl, rfl, rfl, rfl, rfl, rfl⟩
  have booted : handleSystem.init (State.boot fun _ _ => 0) := ⟨_, rfl⟩
  refine ⟨s, (System.Via.init booted).run run, handles, running, by omega, by omega, own, own', fun unique => ?_⟩
  have same := unique.once 0 1 (by omega) (by omega) (own.trans own'.symm)
  cases same

end Aarch64Os.Kernel.Handles
