import Mathlib
import Aarch64Os.Kernel.Buf

/-!
# Reading one block again

For one block it is enough that the buffer `get_buf` picks for it is clear or holds what is on
the disk. This is kept by reading the block, and by writing it and letting it go, whatever the
other buffers hold: the slot depends on the numbers and counts of the buffers only, and those are
as before.
-/

namespace Aarch64Os.Kernel
set_option autoImplicit false

/-- The slot depends on the numbers and counts of the buffers. -/
theorem Bcache.slot_congr {c c' : Bcache} (bno : ∀ d, (c d).bno = (c' d).bno) (ref : ∀ d, (c d).ref = (c' d).ref) (a : BitVec 32) :
    c.slot a = c'.slot a := by
  unfold Bcache.slot
  simp only [bno, ref]

/-- A buffer found by its number is the first with it. -/
theorem Bcache.slot_first {c : Bcache} {bno : BitVec 32} {b : BufId} (slot : c.slot bno = some (b, true)) :
    ∀ d < b, (c d).bno ≠ bno := by
  unfold Bcache.slot at slot
  split at slot
  case h_1 e found =>
    obtain rfl : e = b := by simpa using slot
    rw [← Fin.find?_eq_find?_finRange, Fin.find?_eq_some_iff] at found
    intro d lt
    simpa using found.2 d lt
  case h_2 => simp [Option.map_eq_some_iff] at slot

/-- The buffer `get_buf` picks for block `bno` is clear, or holds what is on the disk. -/
def Fs.UpToDate (s : Fs) (bno : BitVec 32) : Prop :=
  ∀ b held, s.bcache.slot bno = some (b, held) → s.bcache b = Buf.zero ∨
    (s.bcache b).ref ≠ 0 ∧ (s.bcache b).bno = bno ∧ (s.bcache b).valid = true ∧ (s.bcache b).data = s.disk bno

theorem Coherent.upToDate {s : Fs} (h : Coherent s) (bno : BitVec 32) : s.UpToDate bno := by
  intro b held slot
  by_cases free : (s.bcache b).ref = 0
  · exact .inl (h.clear b free)
  · right
    cases held with
    | true =>
      have own := Bcache.slot_held slot
      exact ⟨free, own, h.valid b free, by rw [h.data b free, own]⟩
    | false => exact absurd (Bcache.slot_free slot).1 free

namespace Fs.UpToDate
variable {s : Fs} {bno : BitVec 32} {b : BufId} {held : Bool} {data : Block}

/-- `bio_read` of the block. -/
theorem bioRead (h : s.UpToDate bno) (slot : s.bcache.slot bno = some (b, held)) :
    Kernel.bioRead bno s = .ok (b, s.hold b bno (s.disk bno)) := by
  cases held with
  | false =>
    have free := (Bcache.slot_free slot).1
    have clear : s.bcache b = Buf.zero := (h b false slot).resolve_right fun used => used.1 free
    have got : getBuf bno s = .ok (b, { s with bcache := s.bcache.set b fun x => { x with ref := 1, bno := bno } }) := by
      simp [getBuf, slot]
    rw [Kernel.bioRead, FsM.bind_of_ok got, FsM.bind_of_ok FsM.get_run]
    simp [clear, Buf.zero, Fs.hold, bind, StateT.bind, Except.bind, Bcache.set]
  | true =>
    have own := Bcache.slot_held slot
    have got : getBuf bno s = .ok (b, { s with bcache := s.bcache.set b fun x => { x with ref := x.ref + 1 } }) := by
      simp [getBuf, slot]
    rw [Kernel.bioRead, FsM.bind_of_ok got, FsM.bind_of_ok FsM.get_run]
    obtain clear | ⟨-, -, valid, same⟩ := h b true slot
    · rw [clear] at own
      simp [clear, Buf.zero, Fs.hold, bind, StateT.bind, Except.bind, Bcache.set, ← own]
    · simp [valid, Fs.hold, Bcache.set, own, ← same]

/-- The buffer holds the block, or it is free, where `bio_free` asks. -/
theorem slot (h : s.UpToDate bno) (slot : s.bcache.slot bno = some (b, held)) :
    ((s.bcache b).ref ≠ 0 → (s.bcache b).valid = true) ∧ ((s.bcache b).ref ≠ 0 → (s.bcache b).bno = bno) := by
  obtain clear | ⟨-, own, valid, -⟩ := h b held slot
  · constructor <;> intro used <;> exact absurd (by rw [clear]; rfl) used
  · exact ⟨fun _ => valid, fun _ => own⟩

/-- Letting the block go gives the state of `put`. -/
theorem bioFree (h : s.UpToDate bno) (slot : s.bcache.slot bno = some (b, held)) (data : Block) :
    Kernel.bioFree b ((s.write bno data).hold b bno data) = .ok ((), s.put b bno data) := by
  obtain ⟨valid, own⟩ := h.slot slot
  have taken : (((s.write bno data).hold b bno data).bcache b).ref ≠ 0 := by simp [Fs.hold]
  unfold Kernel.bioFree
  rw [if_neg taken]
  simp only [Fs.hold, Fs.put, Fs.letGo, Fs.write, Bcache.set_set]
  by_cases free : (s.bcache b).ref = 0
  · simp [Bcache.set, free]
  · simp [Bcache.set, free, ← own free, ← valid free]

/-- A write that changes nothing but the data of the block keeps the slots. -/
theorem put_slot (h : s.UpToDate bno) (slot : s.bcache.slot bno = some (b, held)) (data : Block) (a : BitVec 32) :
    (s.put b bno data).bcache.slot a = s.bcache.slot a := by
  apply Bcache.slot_congr
  · intro d
    rcases eq_or_ne d b with rfl | ne
    · by_cases free : (s.bcache d).ref = 0
      · obtain clear | ⟨used, -⟩ := h d held slot
        · simp [Fs.put, Fs.write, Fs.letGo, clear]
        · exact absurd free used
      · simp [Fs.put, Fs.write, Fs.letGo, free]
    · simp [Fs.put, Fs.write, Fs.letGo, Bcache.set_ne _ _ ne]
  · exact fun d => Fs.put_ref s b d bno data

/-- **A block that was put is read back.** -/
theorem put (h : s.UpToDate bno) (slot : s.bcache.slot bno = some (b, held)) (data : Block) : (s.put b bno data).UpToDate bno := by
  intro d held' slot'
  rw [h.put_slot slot data, slot] at slot'
  cases slot'
  obtain clear | ⟨used, own, valid, -⟩ := h b held slot
  · left
    simp [Fs.put, Fs.write, Fs.letGo, clear]
  · right
    simp [Fs.put, Fs.write, Fs.letGo, used, own, valid]

end Fs.UpToDate

/-- Reading it once more keeps it so. -/
theorem Fs.upToDate_hold {s : Fs} {bno : BitVec 32} {b : BufId} {held : Bool} (slot : s.bcache.slot bno = some (b, held)) :
    (s.hold b bno (s.disk bno)).bcache.slot bno = some (b, true) ∧ (s.hold b bno (s.disk bno)).UpToDate bno := by
  have self : (s.hold b bno (s.disk bno)).bcache b =
      { data := s.disk bno, bno := bno, ref := (s.bcache b).ref + 1, valid := true } := by simp [Fs.hold]
  have other : ∀ d, d ≠ b → (s.hold b bno (s.disk bno)).bcache d = s.bcache d := fun d ne => by
    simp [Fs.hold, Bcache.set_ne _ _ ne]
  have before : ∀ d < b, (s.bcache d).bno ≠ bno := by
    intro d lt
    cases held with
    | false => exact (Bcache.slot_free slot).2 d
    | true => exact Bcache.slot_first slot d lt
  have found : (List.finRange NBUF).find? (fun d => ((s.hold b bno (s.disk bno)).bcache d).bno = bno) = some b := by
    rw [← Fin.find?_eq_find?_finRange, Fin.find?_eq_some_iff]
    constructor
    · simp [self]
    · intro d lt
      simp [other d (ne_of_lt lt), before d lt]
  have first : (s.hold b bno (s.disk bno)).bcache.slot bno = some (b, true) := by
    rw [Bcache.slot, found]
  constructor
  · exact first
  · intro d held' slot'
    rw [first] at slot'
    cases slot'
    right
    rw [self]
    exact ⟨by simp, rfl, rfl, rfl⟩

/-- A block that was read and not changed. -/
theorem Fs.UpToDate.bioFree_read {s : Fs} {bno : BitVec 32} {b : BufId} {held : Bool} (h : s.UpToDate bno)
    (slot : s.bcache.slot bno = some (b, held)) :
    Kernel.bioFree b (s.hold b bno (s.disk bno)) = .ok ((), s.put b bno (s.disk bno)) := by
  have same : s.write bno (s.disk bno) = s := by rw [Fs.write, Function.update_eq_self]
  have freed := h.bioFree slot (s.disk bno)
  rwa [same] at freed

/-- A slot is room. -/
theorem Fs.Room.of_slot {s : Fs} {bno : BitVec 32} {b : BufId} {held : Bool} (slot : s.bcache.slot bno = some (b, held)) :
    s.Room bno := by
  cases held with
  | false => exact ⟨b, .inr (Bcache.slot_free slot).1⟩
  | true => exact ⟨b, .inl (Bcache.slot_held slot)⟩

/-- Without room `bio_read` panics. -/
theorem bioRead_full {s : Fs} {bno : BitVec 32} (full : ¬ s.Room bno) : bioRead bno s = .error (.panic "buf") := by
  cases slot : s.bcache.slot bno with
  | some p => exact absurd (.of_slot slot) full
  | none => simp [bioRead, bind, StateT.bind, Except.bind, getBuf, slot]

end Aarch64Os.Kernel
