import Mathlib.Data.List.Basic
import Mathlib.Logic.Function.Basic
import Aarch64Os.Base.Transition

/-!
# A store whose entries are worked on in copies

A user of a store reads entries, works on what he has read in place, and writes it back. All
his handles of an entry share one copy, and the copy is gone when he lets go of the last one.
Keys and values are parameters.
-/

namespace Base
set_option autoImplicit false

/-- What a user does; a handle is named by its place among his handles. -/
inductive StoreCall (κ ν : Type)
  | read (k : κ)
  | modify (h : Nat) (v : ν)
  | write (h : Nat)
  | dup (h : Nat)
  | free (h : Nat)

/-- What was last written to each entry, the copies of those he has handles of, the handles,
and what his reads have returned, the last one first. -/
structure OpenStore (κ ν : Type) where
  stored : κ → ν
  copy : κ → ν
  handles : List κ
  seen : List ν

namespace OpenStore
variable {κ ν : Type} [DecidableEq κ] {s t : OpenStore κ ν} {c : StoreCall κ ν} {k : κ}

/-- A store nobody has used yet. -/
def fresh (stored : κ → ν) : OpenStore κ ν := { stored := stored, copy := stored, handles := [], seen := [] }

/-- What reading an entry returns: the copy there is, or what was last written. -/
def shows (s : OpenStore κ ν) (k : κ) : ν := if k ∈ s.handles then s.copy k else s.stored k

/-- The meaning of a call; there is none without the handle. -/
def step (s : OpenStore κ ν) : StoreCall κ ν → Option (OpenStore κ ν)
  | .read k => some { s with
      copy := Function.update s.copy k (s.shows k), handles := k :: s.handles, seen := s.shows k :: s.seen }
  | .modify h v => s.handles[h]?.map fun k => { s with copy := Function.update s.copy k v }
  | .write h => s.handles[h]?.map fun k => { s with stored := Function.update s.stored k (s.copy k) }
  | .dup h => s.handles[h]?.map fun k => { s with handles := k :: s.handles }
  | .free h => s.handles[h]?.map fun _ => { s with handles := s.handles.eraseIdx h }

/-- The entry a call is about. -/
def subject (s : OpenStore κ ν) : StoreCall κ ν → Option κ
  | .read k => some k
  | .modify h _ => s.handles[h]?
  | .write h => s.handles[h]?
  | .dup h => s.handles[h]?
  | .free h => s.handles[h]?

theorem shows_held (held : k ∈ s.handles) : s.shows k = s.copy k := if_pos held

theorem shows_closed (closed : k ∉ s.handles) : s.shows k = s.stored k := if_neg closed

omit [DecidableEq κ] in
/-- Letting go of a handle of another entry closes nothing here. -/
theorem mem_eraseIdx_of_ne {l : List κ} {h : Nat} {d : κ} (at_h : l[h]? = some d) (ne : k ≠ d) : k ∈ l.eraseIdx h ↔ k ∈ l := by
  refine ⟨List.mem_of_mem_eraseIdx, fun mem => ?_⟩
  obtain ⟨i, lt, here⟩ := List.getElem_of_mem mem
  apply List.mem_eraseIdx_iff_getElem?.2
  refine ⟨i, fun same => ?_, by rw [List.getElem?_eq_getElem lt, here]⟩
  subst same
  rw [List.getElem?_eq_getElem lt, here] at at_h
  exact ne (Option.some.inj at_h)

/-- **Entries are independent**: a call about one leaves what reading another returns. -/
theorem step_shows (step : s.step c = some t) (other : s.subject c ≠ some k) : t.shows k = s.shows k := by
  cases c with
  | read d =>
    have ne : k ≠ d := fun e => other (by rw [e]; rfl)
    cases step
    simp [shows, ne]
  | modify h v =>
    obtain ⟨d, at_h, rfl⟩ := Option.map_eq_some_iff.1 step
    have ne : k ≠ d := fun e => other (by rw [e]; exact at_h)
    simp [shows, ne]
  | write h =>
    obtain ⟨d, at_h, rfl⟩ := Option.map_eq_some_iff.1 step
    have ne : k ≠ d := fun e => other (by rw [e]; exact at_h)
    simp [shows, ne]
  | dup h =>
    obtain ⟨d, at_h, rfl⟩ := Option.map_eq_some_iff.1 step
    have ne : k ≠ d := fun e => other (by rw [e]; exact at_h)
    simp [shows, ne]
  | free h =>
    obtain ⟨d, at_h, rfl⟩ := Option.map_eq_some_iff.1 step
    have ne : k ≠ d := fun e => other (by rw [e]; exact at_h)
    simp only [shows, mem_eraseIdx_of_ne at_h ne]

end OpenStore

end Base
