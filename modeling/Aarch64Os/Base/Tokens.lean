import Mathlib.Data.List.Basic

/-!
# Fields and tokens

The fields of a text are the non-empty runs without a separator. A tokenizer that cuts at every separator
finds the pieces in front of one: an empty piece for each separator too many, and nothing at the end. The
two are the same where each field is followed by exactly one separator.
-/

namespace Base
set_option autoImplicit false

variable {α : Type} {p : α → Bool} {text w rest : List α} {d : α}

/-- The non-empty runs without a separator. -/
def fields (p : α → Bool) (text : List α) : List (List α) := (text.splitOnP p).filter fun w => !w.isEmpty

/-- The pieces in front of a separator. -/
def tokens (p : α → Bool) (text : List α) : List (List α) := (text.splitOnP p).dropLast

theorem tokens_run (free : ∀ c ∈ w, p c = false) : tokens p w = [] := by
  rw [tokens, List.splitOnP_eq_singleton free]
  rfl

theorem tokens_cut (free : ∀ c ∈ w, p c = false) (sep : p d = true) : tokens p (w ++ d :: rest) = w :: tokens p rest := by
  rw [tokens, tokens, List.splitOnP_append_cons w rest sep, List.splitOnP_eq_singleton free, List.singleton_append,
    List.dropLast_cons_of_ne_nil (List.splitOnP_ne_nil p rest)]

/-- A text has no separator, or it is a run in front of one, with more behind it. -/
theorem run_cases (p : α → Bool) (text : List α) :
    (∀ c ∈ text, p c = false) ∨ ∃ w d rest, text = w ++ d :: rest ∧ (∀ c ∈ w, p c = false) ∧ p d = true := by
  induction text with
  | nil => exact .inl fun c mem => absurd mem List.not_mem_nil
  | cons c text ih =>
    by_cases sep : p c = true
    · exact .inr ⟨[], c, text, rfl, fun d mem => absurd mem List.not_mem_nil, sep⟩
    · have other : p c = false := Bool.eq_false_iff.2 sep
      rcases ih with free | ⟨w, d, rest, rfl, free, ends⟩
      · refine .inl fun d mem => ?_
        rcases List.mem_cons.1 mem with rfl | mem
        · exact other
        · exact free d mem
      · refine .inr ⟨c :: w, d, rest, rfl, fun e mem => ?_, ends⟩
        rcases List.mem_cons.1 mem with rfl | mem
        · exact other
        · exact free e mem

theorem fields_cons_sep (sep : p d = true) : fields p (d :: text) = fields p text := by
  unfold fields
  rw [List.splitOnP_cons_eq_if_modifyHead, if_pos sep]
  rfl

/-- Leading separators belong to no field. -/
theorem fields_skip (text : List α) : fields p (text.dropWhile p) = fields p text := by
  induction text with
  | nil => rfl
  | cons c text ih =>
    by_cases sep : p c = true
    · rw [List.dropWhile_cons_of_pos sep, ih, fields_cons_sep sep]
    · rw [List.dropWhile_cons_of_neg sep]

theorem fields_run (ne : w ≠ []) (free : ∀ c ∈ w, p c = false) : fields p w = [w] := by
  rw [fields, List.splitOnP_eq_singleton free]
  simp [ne]

theorem fields_cut (ne : w ≠ []) (free : ∀ c ∈ w, p c = false) (sep : p d = true) : fields p (w ++ d :: rest) = w :: fields p rest := by
  rw [fields, List.splitOnP_append_cons w rest sep, List.filter_append, List.splitOnP_eq_singleton free, fields]
  simp [ne]

/-- Behind each field is a separator, and no other separator behind this. -/
inductive Separated (p : α → Bool) : List α → Prop
  | nil : Separated p []
  | cons {w rest : List α} {d : α} : w ≠ [] → (∀ c ∈ w, p c = false) → p d = true → Separated p rest → Separated p (w ++ d :: rest)

/-- No token is lost. -/
theorem length_fields_le (text : List α) : (fields p text).length ≤ (tokens p text).length + 1 := by
  have cut := List.length_filter_le (fun w : List α => !w.isEmpty) (text.splitOnP p)
  rw [fields, tokens, List.length_dropLast]
  omega

theorem Separated.tokens (separated : Separated p text) : Base.tokens p text = fields p text := by
  induction separated with
  | nil => rfl
  | cons ne free sep _ ih => rw [tokens_cut free sep, fields_cut ne free sep, ih]

/-- **Tokens are fields** just where each field is followed by exactly one separator. -/
theorem tokens_eq_fields_iff (text : List α) : tokens p text = fields p text ↔ Separated p text := by
  refine ⟨fun same => ?_, Separated.tokens⟩
  induction size : text.length using Nat.strongRecOn generalizing text with
  | ind n ih =>
    subst size
    rcases run_cases p text with free | ⟨w, d, rest, rfl, free, sep⟩
    · by_cases ne : text = []
      · subst ne
        exact .nil
      · rw [tokens_run free, fields_run ne free] at same
        exact absurd same.symm (List.cons_ne_nil _ _)
    · have full : w ≠ [] := by
        rintro rfl
        rw [tokens_cut free sep, List.nil_append] at same
        have mem : [] ∈ fields p (d :: rest) := same ▸ List.mem_cons_self
        exact absurd (List.mem_filter.1 mem).2 (by simp)
      rw [tokens_cut free sep, fields_cut full free sep] at same
      refine .cons full free sep (ih rest.length ?_ rest (List.cons.inj same).2 rfl)
      rw [List.length_append, List.length_cons]
      omega

end Base
