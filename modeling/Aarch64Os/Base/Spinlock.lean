import Mathlib.Logic.Function.Basic

/-!
# Exclusion by spinlocks

A table says who owns each lock, and `holds` says who needs one where he is in his code.
As long as everybody owns what he holds, two never hold the same lock. Nothing here depends
on what the locks protect: locks and owners are parameters.
-/

namespace Base
set_option autoImplicit false

variable {L O : Type} [DecidableEq L]

/-- Everybody owns the locks he holds. -/
def Exclusive (owner : L → Option O) (holds : O → L → Prop) : Prop := ∀ o l, holds o l → owner l = some o

namespace Exclusive
variable {owner : L → Option O} {holds holds' : O → L → Prop} {o o' : O} {l : L}

omit [DecidableEq L] in
/-- **Mutual exclusion.** -/
theorem unique (h : Exclusive owner holds) (one : holds o l) (other : holds o' l) : o = o' :=
  Option.some.inj ((h o l one).symm.trans (h o' l other))

omit [DecidableEq L] in
theorem mono (h : Exclusive owner holds) (less : ∀ o l, holds' o l → holds o l) : Exclusive owner holds' :=
  fun o l holds => h o l (less o l holds)

/-- A free lock is taken. -/
theorem acquire (h : Exclusive owner holds) (free : owner l = none)
    (more : ∀ o' l', holds' o' l' → holds o' l' ∨ o' = o ∧ l' = l) : Exclusive (Function.update owner l (some o)) holds' := by
  intro o' l' now
  rcases more o' l' now with before | ⟨rfl, rfl⟩
  · have owned := h o' l' before
    have ne : l' ≠ l := fun e => by simp [e, free] at owned
    rwa [Function.update_of_ne ne]
  · exact Function.update_self ..

/-- A lock passes from `o` to somebody else, or to nobody. -/
theorem pass (h : Exclusive owner holds) (held : holds o l) {next : Option O}
    (less : ∀ o' l', holds' o' l' → holds o' l' ∧ (o' ≠ o ∨ l' ≠ l) ∨ some o' = next ∧ l' = l) :
    Exclusive (Function.update owner l next) holds' := by
  intro o' l' now
  rcases less o' l' now with ⟨before, other⟩ | ⟨rfl, rfl⟩
  · have ne : l' ≠ l := by
      rintro rfl
      exact other.elim (fun ne => ne (h.unique before held)) fun ne => ne rfl
    rw [Function.update_of_ne ne]
    exact h o' l' before
  · exact Function.update_self ..

end Exclusive

/-- What somebody has done to a lock that records its owner: nothing, taken it, or recorded that it is his. -/
inductive Grip
  | none
  | taken
  | recorded
  deriving DecidableEq

/-- One at most has the lock, it is taken when somebody has it, and who is recorded has recorded himself. -/
structure Recorded (lock : Bool) (owner : Option O) (grip : O → Grip) : Prop where
  alone : ∀ o o', grip o ≠ .none → grip o' ≠ .none → o = o'
  lock : lock = true ↔ ∃ o, grip o ≠ .none
  owner : ∀ o, owner = some o ↔ grip o = .recorded

namespace Recorded
variable {lock : Bool} {owner : Option O} {grip : O → Grip} {o o' : O}

/-- Others have nothing of it. -/
theorem others (h : Recorded lock owner grip) (mine : grip o ≠ .none) (ne : o' ≠ o) : grip o' = .none := by
  by_contra other
  exact ne (h.alone o' o other mine)

variable [DecidableEq O]

/-- A lock that nobody has is taken. -/
theorem take (h : Recorded false owner grip) (o : O) : Recorded true owner (Function.update grip o .taken) := by
  have free : ∀ o, grip o = .none := by
    intro o
    by_contra taken
    cases h.lock.2 ⟨o, taken⟩
  have nobody : ∀ o', Function.update grip o .taken o' ≠ .none → o' = o := by
    intro o' taken
    by_contra ne
    exact taken ((Function.update_of_ne ne ..).trans (free o'))
  refine ⟨?_, ?_, ?_⟩
  · exact fun o₁ o₂ one two => (nobody o₁ one).trans (nobody o₂ two).symm
  · refine iff_of_true rfl ⟨o, ?_⟩
    rw [Function.update_self]
    nofun
  · intro o'
    rw [h.owner, free o']
    refine iff_of_false nofun ?_
    rcases eq_or_ne o' o with rfl | ne
    · rw [Function.update_self]
      nofun
    · rw [Function.update_of_ne ne, free o']
      nofun

/-- One who has it goes on: what is recorded is what he says. -/
theorem moves (h : Recorded lock owner grip) (mine : grip o ≠ .none) {g : Grip} (keeps : g ≠ .none) {owner' : Option O}
    (tells : owner' = if g = .recorded then some o else none) : Recorded lock owner' (Function.update grip o g) := by
  have same : ∀ o', Function.update grip o g o' ≠ .none ↔ grip o' ≠ .none := by
    intro o'
    rcases eq_or_ne o' o with rfl | ne
    · rw [Function.update_self]
      exact iff_of_true keeps mine
    · rw [Function.update_of_ne ne]
  refine ⟨?_, ?_, ?_⟩
  · exact fun o₁ o₂ one two => h.alone o₁ o₂ ((same o₁).1 one) ((same o₂).1 two)
  · rw [h.lock]
    exact exists_congr fun o' => (same o').symm
  · intro o'
    rw [tells]
    rcases eq_or_ne o' o with rfl | ne
    · rw [Function.update_self]
      split
      · rename_i mine
        exact iff_of_true rfl mine
      · rename_i other
        exact iff_of_false nofun other
    · rw [Function.update_of_ne ne, h.others mine ne]
      refine iff_of_false ?_ nofun
      split
      · exact fun same => ne (Option.some.inj same).symm
      · nofun

/-- It is free again, when its owner has unrecorded himself. -/
theorem free (h : Recorded lock owner grip) (mine : grip o = .taken) : Recorded false owner (Function.update grip o .none) := by
  have taken : grip o ≠ .none := by
    rw [mine]
    nofun
  have nobody : ∀ o', Function.update grip o .none o' = .none := by
    intro o'
    rcases eq_or_ne o' o with rfl | ne
    · exact Function.update_self ..
    · exact (Function.update_of_ne ne ..).trans (h.others taken ne)
  refine ⟨?_, ?_, ?_⟩
  · exact fun o₁ _ one => absurd (nobody o₁) one
  · refine iff_of_false nofun ?_
    rintro ⟨o', taken⟩
    exact taken (nobody o')
  · intro o'
    rw [h.owner, nobody o']
    refine iff_of_false ?_ nofun
    rcases eq_or_ne o' o with rfl | ne
    · rw [mine]
      nofun
    · rw [h.others taken ne]
      nofun

end Recorded

end Base
