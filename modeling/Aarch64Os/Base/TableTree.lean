import Aarch64Os.Base.Counting
import Mathlib.Algebra.BigOperators.Group.Multiset.Basic
import Mathlib.Algebra.Order.BigOperators.Group.Finset
import Mathlib.Data.Multiset.Count

/-!
# Trees of tables

A table has a name and a slot for every index; a slot may hold an entry, which may be a table
itself. What a tree weighs is the sum of what its nodes weigh, so that a change of one slot
moves the weight by the old and the new entry; so are its names, each as often as it occurs.
Indices, names and entries are parameters.
-/

namespace Base
set_option autoImplicit false

/-- A table named `name` whose slots are indexed by `ι`. -/
structure Table (ι κ α : Type) where
  name : κ
  entry : ι → Option α

namespace Table
variable {ι κ α : Type}

/-- A table without entries. -/
def empty (name : κ) : Table ι κ α := { name, entry := fun _ => none }

@[simp] theorem empty_name (name : κ) : (empty name : Table ι κ α).name = name := rfl

@[simp] theorem empty_entry (name : κ) (i : ι) : (empty name : Table ι κ α).entry i = none := rfl

/-- The names in a tree: its own, and those of its entries. -/
def Owns (sub : α → κ → Prop) (t : Table ι κ α) (x : κ) : Prop := x = t.name ∨ ∃ i a, t.entry i = some a ∧ sub a x

theorem owns_empty {sub : α → κ → Prop} {name x : κ} : (empty name : Table ι κ α).Owns sub x ↔ x = name := by
  simp [Owns, empty]

variable [DecidableEq ι]

/-- Change one slot. -/
def put (t : Table ι κ α) (i : ι) (x : Option α) : Table ι κ α := { t with entry := Function.update t.entry i x }

@[simp] theorem put_name (t : Table ι κ α) (i : ι) (x : Option α) : (t.put i x).name = t.name := rfl

@[simp] theorem put_self (t : Table ι κ α) (i : ι) (x : Option α) : (t.put i x).entry i = x := Function.update_self ..

theorem put_ne (t : Table ι κ α) {i j : ι} (x : Option α) (ne : j ≠ i) : (t.put i x).entry j = t.entry j :=
  Function.update_of_ne ne ..

theorem put_put (t : Table ι κ α) (i : ι) (x y : Option α) : (t.put i x).put i y = t.put i y := by
  unfold put
  rw [Function.update_idem]

theorem put_entry (t : Table ι κ α) (i : ι) : t.put i (t.entry i) = t := by
  unfold put
  rw [Function.update_eq_self]

/-- A name in a tree with a changed slot. -/
theorem owns_put {sub : α → κ → Prop} {t : Table ι κ α} {i : ι} {y : Option α} {x : κ} (mine : (t.put i y).Owns sub x) :
    t.Owns sub x ∨ y.elim False fun a => sub a x := by
  rcases mine with own | ⟨j, a, entry, mine⟩
  · exact .inl (.inl own)
  · rcases eq_or_ne j i with rfl | ne
    · rw [put_self] at entry
      rw [entry]
      exact .inr mine
    · rw [put_ne _ _ ne] at entry
      exact .inl (.inr ⟨j, a, entry, mine⟩)

variable [Fintype ι]

/-- The weight of a table: its own, and that of its entries. -/
def weight (own : ℕ) (w : α → ℕ) (t : Table ι κ α) : ℕ := own + ∑ i, (t.entry i).elim 0 w

omit [DecidableEq ι] in
theorem weight_empty (own : ℕ) (w : α → ℕ) (name : κ) : (empty name : Table ι κ α).weight own w = own := by
  simp [weight]

omit [DecidableEq ι] in
theorem weight_mono {own : ℕ} {w w' : α → ℕ} (le : ∀ x, w x ≤ w' x) (t : Table ι κ α) : t.weight own w ≤ t.weight own w' := by
  unfold weight
  apply Nat.add_le_add_left
  apply Finset.sum_le_sum
  intro i _
  cases t.entry i with
  | none => exact le_rfl
  | some x => exact le x

omit [DecidableEq ι] in
/-- Only the entries count. -/
theorem weight_congr {own : ℕ} {w w' : α → ℕ} {t : Table ι κ α} (same : ∀ i x, t.entry i = some x → w x = w' x) :
    t.weight own w = t.weight own w' := by
  unfold weight
  refine congrArg (own + ·) (Finset.sum_congr rfl fun i _ => ?_)
  cases entry : t.entry i with
  | none => rfl
  | some x => exact same i x entry

/-- The weight after one slot changed. -/
theorem weight_put (own : ℕ) (w : α → ℕ) (t : Table ι κ α) (i : ι) (x : Option α) :
    (t.put i x).weight own w + (t.entry i).elim 0 w = t.weight own w + x.elim 0 w := by
  have moved := sum_update (fun y : Option α => y.elim 0 w) t.entry i x
  unfold weight
  rw [Nat.add_assoc, Nat.add_assoc]
  exact congrArg (own + ·) moved

/-- The names in a table, each as often as it occurs: its own, and those of its entries. -/
@[irreducible] def names (sub : α → Multiset κ) (t : Table ι κ α) : Multiset κ := {t.name} + ∑ i, (t.entry i).elim 0 sub

section Names
variable {sub sub' : α → Multiset κ} {t : Table ι κ α} {x : κ} {a b : α} {i j : ι}

omit [DecidableEq ι] in
@[simp] theorem names_empty (sub : α → Multiset κ) (name : κ) : (empty name : Table ι κ α).names sub = {name} := by
  simp [names]

omit [DecidableEq ι] in
/-- Only the entries count. -/
theorem names_congr (same : ∀ i a, t.entry i = some a → sub a = sub' a) : t.names sub = t.names sub' := by
  unfold names
  congr 1
  apply Finset.sum_congr rfl
  intro i _
  cases entry : t.entry i with
  | none => rfl
  | some a => exact same i a entry

/-- The names after one slot changed. -/
theorem names_put (sub : α → Multiset κ) (t : Table ι κ α) (i : ι) (y : Option α) :
    (t.put i y).names sub + (t.entry i).elim 0 sub = t.names sub + y.elim 0 sub := by
  have moved := sum_update (fun y : Option α => y.elim 0 sub) t.entry i y
  unfold names
  rw [add_assoc, add_assoc]
  exact congrArg ({t.name} + ·) moved

omit [DecidableEq ι] [Fintype ι] in
/-- What is given for an entry makes up for it where the entry is put. -/
theorem exchange {m n m' n' old new : Multiset κ} (given : m + new = m' + old) (put : n + old = n' + new) : m + n = m' + n' := by
  apply add_right_cancel (b := old + new)
  calc m + n + (old + new) = m + new + (n + old) := by ac_rfl
    _ = m' + old + (n' + new) := by rw [given, put]
    _ = m' + n' + (old + new) := by ac_rfl

/-- What is behind an entry is part of the table. -/
theorem sub_le_names (entry : t.entry i = some a) : sub a ≤ t.names sub := by
  have moved := names_put sub t i none
  rw [entry, Option.elim_some, Option.elim_none, add_zero] at moved
  rw [← moved]
  exact Multiset.le_add_left ..

omit [DecidableEq ι] in
theorem name_mem (sub : α → Multiset κ) (t : Table ι κ α) : t.name ∈ t.names sub := by
  unfold names
  exact Multiset.mem_add.2 (.inl (Multiset.mem_singleton_self _))

/-- The name of a table is not among those behind it, if none occurs twice. -/
theorem name_not_mem (nodup : (t.names sub).Nodup) (entry : t.entry i = some a) : t.name ∉ sub a := by
  have moved := names_put sub t i none
  rw [entry, Option.elim_some, Option.elim_none, add_zero] at moved
  rw [← moved] at nodup
  have apart := (Multiset.nodup_add.1 nodup).2.2
  intro mem
  exact Multiset.disjoint_left.1 apart (name_mem sub (t.put i none)) mem

/-- Two entries have no name in common then. -/
theorem entry_inj (nodup : (t.names sub).Nodup) (entry : t.entry i = some a) (entry' : t.entry j = some b) (mem : x ∈ sub a) (mem' : x ∈ sub b) :
    i = j := by
  by_contra ne
  have moved := names_put sub t i none
  rw [entry, Option.elim_some, Option.elim_none, add_zero] at moved
  rw [← moved] at nodup
  have apart := (Multiset.nodup_add.1 nodup).2.2
  have rest : sub b ≤ (t.put i none).names sub := by
    apply sub_le_names (i := j)
    rw [put_ne _ _ (Ne.symm ne), entry']
  exact Multiset.disjoint_left.1 apart (Multiset.mem_of_le rest mem') mem

end Names

end Table

end Base
