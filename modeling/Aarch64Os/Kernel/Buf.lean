import Mathlib
import Aarch64Os.Kernel.Fs

/-!
# The buffer cache (`kernel/buf.c`)

`bio_read` hands out a buffer for a block and `bio_free` takes it back; a buffer nobody
holds is cleared. As long as every change of a buffer is followed by `bio_write`, held
buffers agree with the disk, and a block is read or changed as if there were no cache.
-/

namespace Aarch64Os.Kernel
set_option autoImplicit false

/-- Change one buffer. -/
def Bcache.set (c : Bcache) (b : BufId) (f : Buf → Buf) : Bcache := Function.update c b (f (c b))

@[simp] theorem Bcache.set_self (c : Bcache) (b : BufId) (f : Buf → Buf) : c.set b f b = f (c b) :=
  Function.update_self ..

theorem Bcache.set_ne (c : Bcache) {b d : BufId} (f : Buf → Buf) (ne : d ≠ b) : c.set b f d = c d :=
  Function.update_of_ne ne ..

@[simp] theorem Bcache.set_set (c : Bcache) (b : BufId) (f g : Buf → Buf) :
    (c.set b f).set b g = c.set b fun x => g (f x) := by
  simp [Bcache.set]

/-- The slot `get_buf` takes: the first with the block's number, else the first nobody holds. -/
def Bcache.slot (c : Bcache) (bno : BitVec 32) : Option (BufId × Bool) :=
  match (List.finRange NBUF).find? fun i => (c i).bno = bno with
  | some b => some (b, true)
  | none => ((List.finRange NBUF).find? fun i => (c i).ref = 0).map fun b => (b, false)

/-- `get_buf`. -/
def getBuf (bno : BitVec 32) : FsM BufId := fun s =>
  match s.bcache.slot bno with
  | some (b, true) => .ok (b, { s with bcache := s.bcache.set b fun x => { x with ref := x.ref + 1 } })
  | some (b, false) => .ok (b, { s with bcache := s.bcache.set b fun x => { x with ref := 1, bno := bno } })
  | none => .error (.panic "buf")

/-- `bio_read`. -/
def bioRead (bno : BitVec 32) : FsM BufId := do
  let b ← getBuf bno
  let s ← get
  if !(s.bcache b).valid then
    set { s with bcache := s.bcache.set b fun x => { x with data := s.disk bno, valid := true } }
  pure b

/-- `bio_write`. -/
def bioWrite (b : BufId) : FsM Unit :=
  modify fun s => { s with
    disk := Function.update s.disk (s.bcache b).bno (s.bcache b).data
    bcache := s.bcache.set b fun x => { x with valid := true } }

/-- `bio_dup`. -/
def bioDup (b : BufId) : FsM BufId := do
  modify fun s => { s with bcache := s.bcache.set b fun x => { x with ref := x.ref + 1 } }
  pure b

/-- `bio_free`. -/
def bioFree (b : BufId) : FsM Unit := fun s =>
  if (s.bcache b).ref = 0 then .error (.panic "bio_free")
  else .ok ((), { s with bcache := s.bcache.set b fun x =>
    if x.ref - 1 = 0 then Buf.zero else { x with ref := x.ref - 1 } })

/-- The data of a held buffer. -/
def bufData (b : BufId) : FsM Block := do
  let s ← get
  pure (s.bcache b).data

/-- Change the data of a held buffer in place. -/
def setBufData (b : BufId) (data : Block) : FsM Unit :=
  modify fun s => { s with bcache := s.bcache.set b fun x => { x with data := data } }

/-- Buffers agree with the disk: those nobody holds are clear, those held have been read
and hold what is on the disk, and no block but block 0 is held twice. -/
structure Coherent (s : Fs) : Prop where
  clear : ∀ b, (s.bcache b).ref = 0 → s.bcache b = Buf.zero
  valid : ∀ b, (s.bcache b).ref ≠ 0 → (s.bcache b).valid = true
  data : ∀ b, (s.bcache b).ref ≠ 0 → (s.bcache b).data = s.disk (s.bcache b).bno
  once : ∀ b d, (s.bcache b).ref ≠ 0 → (s.bcache d).ref ≠ 0 → (s.bcache b).bno = (s.bcache d).bno →
    (s.bcache b).bno ≠ 0 → b = d

/-- `b` is the buffer held for block `bno`, or it is free. -/
def Fs.Slot (s : Fs) (b : BufId) (bno : BitVec 32) : Prop :=
  (s.bcache b).ref ≠ 0 ∧ (s.bcache b).bno = bno ∨
    (s.bcache b).ref = 0 ∧ (bno ≠ 0 → ∀ d, (s.bcache d).ref ≠ 0 → (s.bcache d).bno ≠ bno)

/-- The state with one more holder of `b`, which holds `data` for block `bno`. -/
def Fs.hold (s : Fs) (b : BufId) (bno : BitVec 32) (data : Block) : Fs :=
  { s with bcache := s.bcache.set b fun x => { data := data, bno := bno, ref := x.ref + 1, valid := true } }

/-- The state once that holder has let go. -/
def Fs.letGo (s : Fs) (b : BufId) (data : Block) : Fs :=
  { s with bcache := s.bcache.set b fun x => if x.ref = 0 then Buf.zero else { x with data := data } }

/-- The disk after `data` has been written to block `bno`. -/
def Fs.write (s : Fs) (bno : BitVec 32) (data : Block) : Fs := { s with disk := Function.update s.disk bno data }

/-- There is a buffer to read block `bno` into. -/
def Fs.Room (s : Fs) (bno : BitVec 32) : Prop := ∃ b, (s.bcache b).bno = bno ∨ (s.bcache b).ref = 0

theorem Bcache.slot_held {c : Bcache} {bno : BitVec 32} {b : BufId} (h : c.slot bno = some (b, true)) :
    (c b).bno = bno := by
  unfold Bcache.slot at h
  split at h
  case h_1 d found =>
    obtain rfl : d = b := by simpa using h
    simpa using List.find?_some found
  case h_2 => simp [Option.map_eq_some_iff] at h

theorem Bcache.slot_free {c : Bcache} {bno : BitVec 32} {b : BufId} (h : c.slot bno = some (b, false)) :
    (c b).ref = 0 ∧ ∀ d, (c d).bno ≠ bno := by
  unfold Bcache.slot at h
  split at h
  case h_1 d found => simp at h
  case h_2 none =>
    obtain ⟨d, found, eq⟩ := Option.map_eq_some_iff.1 h
    obtain rfl : d = b := by simpa using eq
    refine ⟨by simpa using List.find?_some found, fun e => ?_⟩
    simpa using List.find?_eq_none.1 none e (List.mem_finRange e)

/-- A block that is held, or a buffer that is free, gives `get_buf` a slot. -/
theorem Fs.Room.slot {s : Fs} {bno : BitVec 32} (h : s.Room bno) : ∃ p, s.bcache.slot bno = some p := by
  obtain ⟨b, h⟩ := h
  unfold Bcache.slot
  split
  case h_1 d _ => exact ⟨_, rfl⟩
  case h_2 none =>
    have ne : (s.bcache b).bno ≠ bno := by simpa using List.find?_eq_none.1 none b (List.mem_finRange b)
    cases found : (List.finRange NBUF).find? fun i => (s.bcache i).ref = 0 with
    | some d => exact ⟨_, rfl⟩
    | none =>
      have used : (s.bcache b).ref ≠ 0 := by simpa using List.find?_eq_none.1 found b (List.mem_finRange b)
      exact absurd h (by simp [ne, used])

theorem Fs.Slot.room {s : Fs} {b : BufId} {bno : BitVec 32} (slot : s.Slot b bno) : s.Room bno :=
  ⟨b, slot.imp And.right And.left⟩

/-- Holds of two buffers may be taken in either order. -/
theorem Fs.hold_comm (s : Fs) {b d : BufId} (ne : b ≠ d) (bno bno' : BitVec 32) (data data' : Block) :
    (s.hold b bno data).hold d bno' data' = (s.hold d bno' data').hold b bno data := by
  simp only [Fs.hold, Bcache.set, Function.update_of_ne ne, Function.update_of_ne ne.symm]
  rw [Function.update_comm ne]

namespace Coherent
variable {s t : Fs} {b d : BufId} {bno bno' : BitVec 32} {data : Block}

/-- A buffer that is held for no block but 0 is free. -/
theorem slot_of_bno (h : Coherent s) (own : (s.bcache b).bno = bno) : s.Slot b bno := by
  by_cases free : (s.bcache b).ref = 0
  · refine .inr ⟨free, fun pos => ?_⟩
    rw [h.clear b free] at own
    exact absurd own.symm pos
  · exact .inl ⟨free, own⟩

/-- `bio_read` on a coherent cache: it panics, or the buffer it returns has one more holder
and the data of the block. -/
theorem bioRead_eq (h : Coherent s) (bno : BitVec 32) :
    (s.bcache.slot bno = none ∧ bioRead bno s = .error (.panic "buf")) ∨
      ∃ b, s.Slot b bno ∧ bioRead bno s = .ok (b, s.hold b bno (s.disk bno)) := by
  rcases found : s.bcache.slot bno with _ | ⟨b, _ | _⟩
  case none => exact .inl ⟨rfl, by simp [bioRead, bind, StateT.bind, Except.bind, getBuf, found]⟩
  case some.false =>
    obtain ⟨free, others⟩ := Bcache.slot_free found
    refine .inr ⟨b, .inr ⟨free, fun _ d _ => others d⟩, ?_⟩
    have got : getBuf bno s = .ok (b, { s with bcache := s.bcache.set b fun x => { x with ref := 1, bno := bno } }) := by
      simp [getBuf, found]
    rw [bioRead, FsM.bind_of_ok got, FsM.bind_of_ok FsM.get_run]
    simp [h.clear b free, Buf.zero, Fs.hold, bind, StateT.bind, Except.bind, Bcache.set]
  case some.true =>
    have own := Bcache.slot_held found
    refine .inr ⟨b, h.slot_of_bno own, ?_⟩
    have got : getBuf bno s = .ok (b, { s with bcache := s.bcache.set b fun x => { x with ref := x.ref + 1 } }) := by
      simp [getBuf, found]
    rw [bioRead, FsM.bind_of_ok got, FsM.bind_of_ok FsM.get_run]
    by_cases free : (s.bcache b).ref = 0
    · rw [h.clear b free] at own
      simp [h.clear b free, Buf.zero, Fs.hold, bind, StateT.bind, Except.bind, Bcache.set, ← own]
    · have same := h.data b free
      rw [own] at same
      simp [h.valid b free, Fs.hold, Bcache.set, own, ← same]

theorem bioRead_inv (h : Coherent s) (run : bioRead bno s = .ok (b, t)) :
    s.Slot b bno ∧ t = s.hold b bno (s.disk bno) := by
  rcases h.bioRead_eq bno with ⟨-, panic⟩ | ⟨d, slot, read⟩
  · rw [panic] at run
    simp at run
  · rw [read] at run
    obtain ⟨rfl, rfl⟩ := Prod.mk.inj (Except.ok.inj run)
    exact ⟨slot, rfl⟩

/-- With a buffer for the block, `bio_read` returns. -/
theorem bioRead_ok (h : Coherent s) (room : s.Room bno) :
    ∃ b, s.Slot b bno ∧ bioRead bno s = .ok (b, s.hold b bno (s.disk bno)) := by
  obtain ⟨p, found⟩ := room.slot
  rcases h.bioRead_eq bno with ⟨none, _⟩ | ok
  · rw [none] at found; simp at found
  · exact ok

theorem bufData_hold (s : Fs) (b : BufId) (bno : BitVec 32) (data : Block) :
    bufData b (s.hold b bno data) = .ok (data, s.hold b bno data) := by
  simp [bufData, Fs.hold, bind, StateT.bind, Except.bind]

theorem setBufData_hold (s : Fs) (b : BufId) (bno : BitVec 32) (data new : Block) :
    setBufData b new (s.hold b bno data) = .ok ((), s.hold b bno new) := by
  simp [setBufData, Fs.hold]

theorem bioWrite_hold (s : Fs) (b : BufId) (bno : BitVec 32) (data : Block) :
    bioWrite b (s.hold b bno data) = .ok ((), (s.write bno data).hold b bno data) := by
  simp [bioWrite, Fs.hold, Fs.write]

theorem bioFree_hold (data : Block) (valid : (s.bcache b).ref ≠ 0 → (s.bcache b).valid = true) (slot : s.Slot b bno) :
    bioFree b (s.hold b bno data) = .ok ((), s.letGo b data) := by
  have held : ((s.hold b bno data).bcache b).ref ≠ 0 := by simp [Fs.hold]
  unfold bioFree
  rw [if_neg held]
  simp only [Fs.hold, Fs.letGo, Bcache.set_set]
  rcases slot with ⟨used, own⟩ | ⟨free, -⟩
  · simp [Bcache.set, used, ← own, ← valid used]
  · simp [Bcache.set, free]

/-- Reading a block and letting it go changes nothing. -/
theorem letGo_self (h : Coherent s) (slot : s.Slot b bno) : s.letGo b (s.disk bno) = s := by
  have same : (if (s.bcache b).ref = 0 then Buf.zero else { s.bcache b with data := s.disk bno }) = s.bcache b := by
    rcases slot with ⟨used, own⟩ | ⟨free, -⟩
    · rw [if_neg used, ← own, ← h.data b used]
    · rw [if_pos free, h.clear b free]
  simp only [Fs.letGo, Bcache.set, same, Function.update_eq_self]

/-- No other buffer is held for the block. -/
theorem alone (h : Coherent s) (slot : s.Slot b bno) (pos : bno ≠ 0) {d : BufId} (ne : d ≠ b)
    (used : (s.bcache d).ref ≠ 0) : (s.bcache d).bno ≠ bno := by
  intro own
  rcases slot with ⟨used', own'⟩ | ⟨-, others⟩
  · exact ne (h.once d b used used' (own.trans own'.symm) (by rw [own]; exact pos))
  · exact others pos d used own

/-- Writing a block and letting it go leaves the cache coherent. -/
theorem letGo_write (h : Coherent s) (slot : s.Slot b bno) (pos : bno ≠ 0) :
    Coherent ((s.write bno data).letGo b data) := by
  -- the buffers are those of `s`, but for the data of the one held for `bno`
  have buf : ∀ d, ((s.write bno data).letGo b data).bcache d =
      if (s.bcache d).ref ≠ 0 ∧ (s.bcache d).bno = bno then { s.bcache d with data := data } else s.bcache d := by
    intro d
    by_cases e : d = b
    · subst e
      rcases slot with ⟨used, own⟩ | ⟨free, -⟩
      · simp [Fs.write, Fs.letGo, used, own]
      · simp [Fs.write, Fs.letGo, h.clear d free]
    · have other : ¬ ((s.bcache d).ref ≠ 0 ∧ (s.bcache d).bno = bno) := fun held =>
        h.alone slot pos e held.1 held.2
      rw [if_neg other]
      simp [Fs.write, Fs.letGo, Bcache.set_ne _ _ e]
  refine ⟨fun d free => ?_, fun d used => ?_, fun d used => ?_, fun d e used used' own pos' => ?_⟩
  · rw [buf] at free ⊢
    split at free
    case isTrue held => exact absurd free held.1
    case isFalse other => rw [if_neg other, h.clear d free]
  · rw [buf] at used ⊢
    split at used <;> split <;> exact h.valid d used
  · rw [buf] at used ⊢
    change _ = Function.update s.disk bno data _
    split
    case isTrue held => simp [held.2]
    case isFalse other =>
      rw [if_neg other] at used
      rw [Function.update_of_ne fun own => other ⟨used, own⟩]
      exact h.data d used
  · have same : ∀ d, (((s.write bno data).letGo b data).bcache d).ref = (s.bcache d).ref ∧
        (((s.write bno data).letGo b data).bcache d).bno = (s.bcache d).bno := fun d => by
      rw [buf]
      split <;> exact ⟨rfl, rfl⟩
    rw [(same d).1] at used
    rw [(same e).1] at used'
    rw [(same d).2, (same e).2] at own
    rw [(same d).2] at pos'
    exact h.once d e used used' own pos'

/-- One more holder leaves the cache coherent. -/
theorem hold (h : Coherent s) (slot : s.Slot b bno) : Coherent (s.hold b bno (s.disk bno)) := by
  have self : (s.hold b bno (s.disk bno)).bcache b =
      { data := s.disk bno, bno := bno, ref := (s.bcache b).ref + 1, valid := true } := by simp [Fs.hold]
  have other : ∀ d, d ≠ b → (s.hold b bno (s.disk bno)).bcache d = s.bcache d := fun d ne => by
    simp [Fs.hold, Bcache.set_ne _ _ ne]
  refine ⟨fun d free => ?_, fun d used => ?_, fun d used => ?_, fun d e used used' own pos => ?_⟩
  · by_cases eq : d = b
    · subst eq; rw [self] at free; simp at free
    · rw [other d eq] at free ⊢; exact h.clear d free
  · by_cases eq : d = b
    · subst eq; rw [self]
    · rw [other d eq] at used ⊢; exact h.valid d used
  · by_cases eq : d = b
    · subst eq; rw [self]; rfl
    · rw [other d eq] at used ⊢; exact h.data d used
  · by_cases eq : d = b <;> by_cases eq' : e = b
    · exact eq.trans eq'.symm
    · subst eq
      rw [other e eq'] at used' own
      rw [self] at own pos
      exact absurd own.symm (h.alone slot pos eq' used')
    · subst eq'
      rw [other d eq] at used own pos
      rw [self] at own
      exact absurd own (h.alone slot (fun zero => pos (own.trans zero)) eq used)
    · rw [other d eq] at used own pos
      rw [other e eq'] at used' own
      exact h.once d e used used' own pos

/-- What a second read finds in the state of a first one is a slot for it before either. -/
theorem slot_of_hold (slot : s.Slot b bno) (slot' : (s.hold b bno (s.disk bno)).Slot d bno') (diff : b ≠ d) :
    s.Slot d bno' := by
  have other : ∀ e, e ≠ b → (s.hold b bno (s.disk bno)).bcache e = s.bcache e := fun e ne => by
    simp [Fs.hold, Bcache.set_ne _ _ ne]
  rcases slot' with ⟨used, own⟩ | ⟨free, others⟩
  · rw [other d diff.symm] at used own
    exact .inl ⟨used, own⟩
  · rw [other d diff.symm] at free
    refine .inr ⟨free, fun pos e used own => ?_⟩
    by_cases eq : e = b
    · subst eq
      have held : bno ≠ bno' := by simpa [Fs.hold] using others pos e (by simp [Fs.hold])
      rcases slot with ⟨_, own'⟩ | ⟨free', _⟩
      · exact held (own'.symm.trans own)
      · exact used free'
    · exact others pos e (by rwa [other e eq]) (by rwa [other e eq])

/-- The slot of a first read is still one when the second has been made before it. -/
theorem slot_after_hold (slot : s.Slot b bno) (slot' : (s.hold b bno (s.disk bno)).Slot d bno') (diff : b ≠ d) :
    (s.hold d bno' (s.disk bno')).Slot b bno := by
  have other : ∀ e, e ≠ d → (s.hold d bno' (s.disk bno')).bcache e = s.bcache e := fun e ne => by
    simp [Fs.hold, Bcache.set_ne _ _ ne]
  rcases slot with ⟨used, own⟩ | ⟨free, others⟩
  · rw [← other b diff] at used own
    exact .inl ⟨used, own⟩
  · refine .inr ⟨by rwa [other b diff], fun pos e used own => ?_⟩
    by_cases eq : e = d
    · subst eq
      -- both reads are of one block, and the first already holds it
      obtain rfl : bno' = bno := by simpa [Fs.hold] using own
      rcases slot' with ⟨used', own'⟩ | ⟨-, others'⟩
      · simp only [Fs.hold, Bcache.set_ne _ _ diff.symm] at used' own'
        exact others pos e used' own'
      · exact others' pos b (by simp [Fs.hold]) (by simp [Fs.hold])
    · rw [other e eq] at used own
      exact others pos e used own

/-- Reading a block, then another, and letting the first one go leaves the second held. -/
theorem free_first (h : Coherent s) (slot : s.Slot b bno) (slot' : (s.hold b bno (s.disk bno)).Slot d bno') :
    bioFree b ((s.hold b bno (s.disk bno)).hold d bno' (s.disk bno')) = .ok ((), s.hold d bno' (s.disk bno')) ∧
      s.Slot d bno' := by
  by_cases diff : b = d
  · subst diff
    have same : bno' = bno := by
      rcases slot' with ⟨-, own⟩ | ⟨free, -⟩
      · simpa [Fs.hold] using own.symm
      · simp [Fs.hold] at free
    subst same
    have coherent := h.hold slot
    refine ⟨?_, slot⟩
    rw [bioFree_hold (s.disk bno') (coherent.valid b) slot']
    congr 2
    exact coherent.letGo_self slot'
  · have second := slot_of_hold slot slot' diff
    have coherent := h.hold second
    have first := slot_after_hold slot slot' diff
    refine ⟨?_, second⟩
    rw [Fs.hold_comm s diff, bioFree_hold (s.disk bno) (coherent.valid b) first]
    congr 2
    exact coherent.letGo_self first

/-- Letting a block go that was only read changes nothing. -/
theorem free_hold (h : Coherent s) (slot : s.Slot b bno) :
    bioFree b (s.hold b bno (s.disk bno)) = .ok ((), s) := by
  rw [bioFree_hold (s.disk bno) (h.valid b) slot, h.letGo_self slot]

end Coherent

/-- Two buffers are free: as many as one function of the file system holds at a time. -/
def Fs.Spare (s : Fs) : Prop := ∃ b d, b ≠ d ∧ (s.bcache b).ref = 0 ∧ (s.bcache d).ref = 0

theorem Fs.Spare.room {s : Fs} (h : s.Spare) (bno : BitVec 32) : s.Room bno := by
  obtain ⟨b, -, -, free, -⟩ := h
  exact ⟨b, .inr free⟩

/-- With one buffer taken there is still one. -/
theorem Fs.Spare.room_hold {s : Fs} (h : s.Spare) (e : BufId) (bno bno' : BitVec 32) (data : Block) :
    (s.hold e bno data).Room bno' := by
  obtain ⟨b, d, ne, free, free'⟩ := h
  by_cases same : b = e
  · have other : d ≠ e := fun eq => ne (same.trans eq.symm)
    exact ⟨d, .inr (by simp [Fs.hold, Bcache.set_ne _ _ other, free'])⟩
  · exact ⟨b, .inr (by simp [Fs.hold, Bcache.set_ne _ _ same, free])⟩

/-- The state after block `bno` has been read into `b`, changed to `data`, written and let go. -/
def Fs.put (s : Fs) (b : BufId) (bno : BitVec 32) (data : Block) : Fs := (s.write bno data).letGo b data

@[simp] theorem Fs.put_disk (s : Fs) (b : BufId) (bno : BitVec 32) (data : Block) :
    (s.put b bno data).disk = Function.update s.disk bno data := rfl

@[simp] theorem Fs.put_sb (s : Fs) (b : BufId) (bno : BitVec 32) (data : Block) : (s.put b bno data).sb = s.sb := rfl

@[simp] theorem Fs.put_itable (s : Fs) (b : BufId) (bno : BitVec 32) (data : Block) :
    (s.put b bno data).itable = s.itable := rfl

/-- Nobody gains or loses a buffer. -/
theorem Fs.put_ref (s : Fs) (b d : BufId) (bno : BitVec 32) (data : Block) :
    ((s.put b bno data).bcache d).ref = (s.bcache d).ref := by
  by_cases e : d = b
  · subst e
    by_cases free : (s.bcache d).ref = 0 <;> simp [Fs.put, Fs.write, Fs.letGo, free]
  · simp [Fs.put, Fs.write, Fs.letGo, Bcache.set_ne _ _ e]

theorem Fs.Spare.put {s : Fs} (h : s.Spare) (b : BufId) (bno : BitVec 32) (data : Block) :
    (s.put b bno data).Spare := by
  obtain ⟨d, e, ne, free, free'⟩ := h
  exact ⟨d, e, ne, by rwa [Fs.put_ref], by rwa [Fs.put_ref]⟩

/-- `bio_write` and `bio_free` of a buffer read before and changed. -/
theorem Coherent.write_free {s : Fs} {α : Type} (h : Coherent s) {b : BufId} {bno : BitVec 32} (slot : s.Slot b bno)
    (data : Block) (f : Unit → FsM α) :
    (do bioWrite b; bioFree b >>= f) (s.hold b bno data) = f () (s.put b bno data) := by
  rw [FsM.bind_of_ok (bioWrite_hold ..)]
  exact FsM.bind_of_ok (bioFree_hold (s := s.write bno data) data (h.valid b) slot)

end Aarch64Os.Kernel
