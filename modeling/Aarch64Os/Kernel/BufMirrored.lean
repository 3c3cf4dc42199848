import Aarch64Os.Base.Ends
import Aarch64Os.Kernel.Buf

/-!
# Buffers of any block but block 0

A clear buffer carries the number 0, so that block 0 may have several buffers, and a write through
one leaves the others behind. Of every other block there is one buffer at most, and it holds what
is on the disk. This is kept by all that reads blocks, changes them through their buffers and lets
these go, whichever blocks those are.
-/

namespace Aarch64Os.Kernel
set_option autoImplicit false
open Base

/-- Buffers nobody holds are clear, and each other block has one, which shows the disk. -/
structure Fs.Mirrored (s : Fs) : Prop where
  clear : ∀ b, (s.bcache b).ref = 0 → s.bcache b = Buf.zero
  shows : ∀ b, (s.bcache b).bno ≠ 0 → (s.bcache b).valid = true ∧ (s.bcache b).data = s.disk (s.bcache b).bno
  once : ∀ b d, (s.bcache b).bno ≠ 0 → (s.bcache b).bno = (s.bcache d).bno → b = d

/-- The state when data has been put into a buffer, -/
def Fs.changed (s : Fs) (b : BufId) (data : Block) : Fs := { s with bcache := s.bcache.set b fun x => { x with data := data } }

/-- and written to its block. -/
def Fs.stored (s : Fs) (b : BufId) (data : Block) : Fs :=
  { s with disk := Function.update s.disk (s.bcache b).bno data, bcache := s.bcache.set b fun x => { x with data := data, valid := true } }

section Mirrored
variable {s t : Fs} {b d : BufId} {bno : BitVec 32} {x : Buf} {disk : BitVec 32 → Block}

theorem Coherent.mirrored (h : Coherent s) : s.Mirrored := by
  have used : ∀ b, (s.bcache b).bno ≠ 0 → (s.bcache b).ref ≠ 0 := by
    intro b pos free
    rw [h.clear b free] at pos
    exact pos rfl
  constructor
  · exact h.clear
  · exact fun b pos => ⟨h.valid b (used b pos), h.data b (used b pos)⟩
  · exact fun b d pos same => h.once b d (used b pos) (used d (by rwa [← same])) same pos

/-- One buffer changes, and perhaps its block. -/
theorem Fs.Mirrored.update (h : s.Mirrored) (clear : x.ref = 0 → x = Buf.zero) (shows : x.bno ≠ 0 → x.valid = true ∧ x.data = disk x.bno)
    (alone : x.bno ≠ 0 → ∀ d, d ≠ b → (s.bcache d).bno ≠ x.bno)
    (others : ∀ d, d ≠ b → (s.bcache d).bno ≠ 0 → disk (s.bcache d).bno = s.disk (s.bcache d).bno) :
    Fs.Mirrored { s with bcache := Function.update s.bcache b x, disk := disk } := by
  constructor
  · intro d free
    dsimp only at free ⊢
    rcases eq_or_ne d b with rfl | ne
    · rw [Function.update_self] at free ⊢
      exact clear free
    · rw [Function.update_of_ne ne] at free ⊢
      exact h.clear d free
  · intro d pos
    dsimp only at pos ⊢
    rcases eq_or_ne d b with rfl | ne
    · rw [Function.update_self] at pos ⊢
      exact shows pos
    · rw [Function.update_of_ne ne] at pos ⊢
      rw [others d ne pos]
      exact h.shows d pos
  · intro d e pos same
    dsimp only at pos same
    rcases eq_or_ne d b with rfl | ne
    · rcases eq_or_ne e d with rfl | ne'
      · rfl
      · rw [Function.update_self] at pos same
        rw [Function.update_of_ne ne'] at same
        exact absurd same.symm (alone pos e ne')
    · rw [Function.update_of_ne ne] at pos same
      rcases eq_or_ne e b with rfl | ne'
      · rw [Function.update_self] at same
        exact absurd same (alone (by rwa [← same]) d ne)
      · rw [Function.update_of_ne ne'] at same
        exact h.once d e pos same

/-- The buffer of another block has another number. -/
theorem Fs.Mirrored.alone (h : s.Mirrored) (pos : (s.bcache b).bno ≠ 0) (ne : d ≠ b) : (s.bcache d).bno ≠ (s.bcache b).bno :=
  fun same => ne (h.once b d pos same.symm).symm

/-- `bio_read` hands out a buffer that is held, with the data on the disk. -/
theorem mirrored_bioRead (s : Fs) (bno : BitVec 32) : After (bioRead bno) s fun b t =>
    (t.bcache b).ref ≠ 0 ∧ (s.Mirrored → t.Mirrored ∧ (bno ≠ 0 → (t.bcache b).data = s.disk bno)) := by
  intro b t run
  unfold bioRead at run
  obtain ⟨d, u, got, rest⟩ := run_bind.1 run
  obtain ⟨v, w, same, rest⟩ := run_bind.1 rest
  cases same
  unfold getBuf at got
  split at got
  case h_1 e slot =>
    cases got
    have own := Bcache.slot_held slot
    cases valid : (s.bcache d).valid with
    | true =>
      rw [if_neg (by simp [valid])] at rest
      cases rest
      refine ⟨by simp, fun h => ⟨h.update (by simp) ?_ (fun pos e ne => h.alone pos ne) fun _ _ _ => rfl, fun pos => ?_⟩⟩
      · exact fun pos => h.shows b pos
      · obtain ⟨-, shows⟩ := h.shows b (by rwa [own])
        simp [shows, own]
    | false =>
      -- only block 0 has a buffer that was never read
      rw [if_pos (by simp [valid])] at rest
      cases rest
      refine ⟨by simp, fun h => ⟨?_, fun pos => by simp⟩⟩
      have read := h.update (b := b) (x := { data := s.disk bno, bno := bno, ref := (s.bcache b).ref + 1, valid := true })
        (by simp) (fun _ => ⟨rfl, rfl⟩) (fun pos e ne => by rw [← own] at pos ⊢; exact h.alone pos ne) fun _ _ _ => rfl
      simpa [Bcache.set, own] using read
  case h_2 e slot =>
    cases got
    obtain ⟨free, others⟩ := Bcache.slot_free slot
    have fresh : ∀ x : Buf, x.bno = bno → x.ref ≠ 0 → x.valid = true → x.data = s.disk bno → s.Mirrored →
        Fs.Mirrored { s with bcache := Function.update s.bcache d x } := by
      rintro x rfl held valid data h
      exact h.update (fun zero => absurd zero held) (fun _ => ⟨valid, data⟩) (fun _ e _ => others e) fun _ _ _ => rfl
    cases valid : (s.bcache d).valid with
    | true =>
      rw [if_neg (by simp [valid])] at rest
      cases rest
      -- a clear buffer is not valid
      have never : ¬ s.Mirrored := by
        intro h
        rw [h.clear b free] at valid
        cases valid
      exact ⟨by simp, fun h => absurd h never⟩
    | false =>
      rw [if_pos (by simp [valid])] at rest
      cases rest
      refine ⟨by simp, fun h => ⟨?_, fun _ => by simp⟩⟩
      have read := fresh { data := s.disk bno, bno := bno, ref := 1, valid := true } rfl (by simp) rfl rfl h
      simpa [Bcache.set] using read
  case h_3 => cases got

/-- `bio_free` clears the buffer, or counts one holder less. -/
theorem mirrored_bioFree (s : Fs) (b : BufId) : After (bioFree b) s fun _ t => s.Mirrored → t.Mirrored := by
  intro _ t run
  unfold bioFree at run
  split at run
  case isTrue => cases run
  case isFalse held =>
  cases run
  intro h
  by_cases last : (s.bcache b).ref - 1 = 0
  · have cleared := h.update (b := b) (x := Buf.zero) (fun _ => rfl) (fun pos => absurd rfl pos) (fun pos => absurd rfl pos)
      fun _ _ _ => rfl
    simpa [Bcache.set, last] using cleared
  · have fewer := h.update (b := b) (x := { s.bcache b with ref := (s.bcache b).ref - 1 }) (fun zero => absurd zero last)
      (fun pos => h.shows b pos) (fun pos e ne => h.alone pos ne) fun _ _ _ => rfl
    simpa [Bcache.set, last] using fewer

theorem setBufData_runs (s : Fs) (b : BufId) (data : Block) : setBufData b data s = .ok ((), s.changed b data) := rfl

theorem bioWrite_changed (s : Fs) (b : BufId) (data : Block) : bioWrite b (s.changed b data) = .ok ((), s.stored b data) := by
  simp [bioWrite, Fs.changed, Fs.stored]

theorem Fs.Mirrored.stored (h : s.Mirrored) (held : (s.bcache b).ref ≠ 0) (data : Block) : (s.stored b data).Mirrored := by
  apply h.update
  · exact fun zero => absurd zero held
  · exact fun _ => ⟨rfl, (Function.update_self (s.bcache b).bno data s.disk).symm⟩
  · exact fun pos e ne => h.alone pos ne
  · intro e ne pos
    apply Function.update_of_ne
    intro same
    exact ne (h.once e b pos same)

end Mirrored

end Aarch64Os.Kernel
