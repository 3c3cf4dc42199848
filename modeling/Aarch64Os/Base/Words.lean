import Mathlib.Data.List.DropRight

/-!
# Words between separators

The words of a text are the non-empty runs of characters between separators. They are read
off from the left: drop separators, take a run, go on behind it.
-/

namespace Base
set_option autoImplicit false

variable {α : Type} [DecidableEq α] {sep : α} {text w : List α}

/-- The non-empty runs between separators. -/
def words (sep : α) (text : List α) : List (List α) := (text.splitOn sep).filter fun w => !w.isEmpty

@[simp] theorem words_nil : words sep [] = [] := by simp [words, List.splitOn_nil]

/-- Words split at a separator. -/
theorem words_append_sep (front back : List α) : words sep (front ++ sep :: back) = words sep front ++ words sep back := by
  unfold words
  rw [List.splitOn_append_cons_self, List.filter_append]

@[simp] theorem words_cons_sep (text : List α) : words sep (sep :: text) = words sep text := by
  simpa using words_append_sep [] text

/-- A run without separators is one word. -/
theorem words_run (ne : w ≠ []) (free : sep ∉ w) : words sep w = [w] := by
  unfold words
  rw [List.splitOn_eq_singleton free]
  simp [ne]

/-- No piece of a split has the separator in it. -/
theorem not_mem_of_mem_splitOn (mem : w ∈ text.splitOn sep) : sep ∉ w := by
  induction text generalizing w with
  | nil =>
    rw [List.splitOn_nil, List.mem_singleton] at mem
    subst mem
    exact List.not_mem_nil
  | cons c text ih =>
    rw [List.splitOn_cons_eq_if_modifyHead] at mem
    obtain ⟨first, others, pieces⟩ := List.exists_cons_of_ne_nil (List.splitOn_ne_nil sep text)
    split at mem
    · rcases List.mem_cons.1 mem with rfl | mem
      · exact List.not_mem_nil
      · exact ih mem
    · rw [pieces, List.modifyHead_cons] at mem
      rw [pieces] at ih
      rcases List.mem_cons.1 mem with rfl | mem
      · have differ : sep ≠ c := fun e => ‹¬ (c == sep) = true› (by simp [e])
        simpa [differ] using ih List.mem_cons_self
      · exact ih (List.mem_cons_of_mem _ mem)

/-- A word is not empty and has no separator in it. -/
theorem of_mem_words (mem : w ∈ words sep text) : w ≠ [] ∧ sep ∉ w := by
  obtain ⟨piece, full⟩ := List.mem_filter.1 mem
  exact ⟨by simpa using full, not_mem_of_mem_splitOn piece⟩

/-- Leading separators belong to no word. -/
theorem words_skip (text : List α) : words sep (text.dropWhile (· = sep)) = words sep text := by
  induction text with
  | nil => rfl
  | cons c text ih =>
    by_cases same : c = sep
    · subst same
      rw [List.dropWhile_cons_of_pos (by simp), ih, words_cons_sep]
    · rw [List.dropWhile_cons_of_neg (by simpa using same)]

/-- A text that starts with a run has it as its first word; what is behind the next separator
gives the others. -/
theorem words_run_append {rest : List α} (ne : w ≠ []) (free : sep ∉ w) (stop : rest = [] ∨ rest.head? = some sep) :
    words sep (w ++ rest) = w :: words sep rest.tail := by
  cases rest with
  | nil => rw [List.append_nil, words_run ne free]; simp
  | cons c rest =>
    obtain rfl : c = sep := by simpa using stop
    rw [words_append_sep, words_run ne free]
    rfl

/-- A text read off from the left: only separators, or a first word with what is behind it. -/
theorem words_cases (sep : α) (text : List α) :
    text.dropWhile (· = sep) = [] ∧ words sep text = [] ∨
      ∃ w rest, text.dropWhile (· = sep) = w ++ rest ∧ w ≠ [] ∧ sep ∉ w ∧ (rest = [] ∨ rest.head? = some sep) ∧
        words sep text = w :: words sep rest.tail := by
  rw [← words_skip text]
  cases skipped : text.dropWhile (· = sep) with
  | nil => exact .inl ⟨rfl, words_nil⟩
  | cons c tail =>
    right
    have head : c ≠ sep := by
      have first := List.head?_dropWhile_not (fun x => decide (x = sep)) text
      rw [skipped] at first
      simpa using first
    have run : (c :: tail).takeWhile (· ≠ sep) ≠ [] := by
      rw [List.takeWhile_cons_of_pos (by simpa using head)]
      nofun
    have free : sep ∉ (c :: tail).takeWhile (· ≠ sep) := by
      intro mem
      have all := List.all_takeWhile (l := c :: tail) (p := fun x => decide (x ≠ sep))
      simpa using List.all_eq_true.1 all sep mem
    have stop : (c :: tail).dropWhile (· ≠ sep) = [] ∨ ((c :: tail).dropWhile (· ≠ sep)).head? = some sep := by
      cases behind : (c :: tail).dropWhile (· ≠ sep) with
      | nil => exact .inl rfl
      | cons d rest =>
        have next := List.head?_dropWhile_not (fun x => decide (x ≠ sep)) (c :: tail)
        rw [behind] at next
        right
        simpa using next
    refine ⟨_, _, List.takeWhile_append_dropWhile.symm, run, free, stop, ?_⟩
    rw [← words_run_append run free stop, List.takeWhile_append_dropWhile]

/-- Trailing separators belong to no word. -/
theorem words_append_seps {seps : List α} (all : ∀ c ∈ seps, c = sep) : words sep (text ++ seps) = words sep text := by
  induction seps generalizing text with
  | nil => rw [List.append_nil]
  | cons c seps ih =>
    obtain rfl : c = sep := all c List.mem_cons_self
    have rest : words c ([] ++ seps) = words c [] := ih fun d hd => all d (List.mem_cons_of_mem _ hd)
    rw [words_append_sep, ← List.nil_append seps, rest, words_nil, List.append_nil]

/-- The text in front of its last word. -/
def dropLastWord (sep : α) (text : List α) : List α := (text.rdropWhile (· = sep)).rdropWhile (· ≠ sep)

/-- A text with a word is what is in front of the last one, that word, and separators. -/
theorem dropLastWord_split (some : words sep text ≠ []) : ∃ w seps, text = dropLastWord sep text ++ (w ++ seps) ∧ w ≠ [] ∧
    sep ∉ w ∧ (∀ c ∈ seps, c = sep) ∧ (dropLastWord sep text = [] ∨ ∃ front, dropLastWord sep text = front ++ [sep]) := by
  have seps : ∀ c ∈ text.rtakeWhile (· = sep), c = sep := fun c mem => by simpa using List.mem_rtakeWhile_imp mem
  have full : text.rdropWhile (· = sep) ≠ [] := by
    intro empty
    apply some
    have all : text = [] ++ text.rtakeWhile (· = sep) := by
      rw [← empty, List.rdropWhile_append_rtakeWhile]
    rw [all, words_append_seps seps, words_nil]
  have last : (text.rdropWhile (· = sep)).getLast full ≠ sep := by
    simpa using List.rdropWhile_last_not (fun x => decide (x = sep)) text full
  refine ⟨(text.rdropWhile (· = sep)).rtakeWhile (· ≠ sep), text.rtakeWhile (· = sep), ?_, ?_, ?_, seps, ?_⟩
  · rw [← List.append_assoc, dropLastWord, List.rdropWhile_append_rtakeWhile, List.rdropWhile_append_rtakeWhile]
  · intro empty
    have ends := List.rtakeWhile_eq_nil_iff.1 empty full
    simp only [ne_eq, decide_not, Bool.not_eq_true', decide_eq_false_iff_not, not_not] at ends
    exact last ends
  · intro mem
    simpa using List.mem_rtakeWhile_imp mem
  · by_cases nil : dropLastWord sep text = []
    · exact .inl nil
    · have stop : ¬ decide ((dropLastWord sep text).getLast nil ≠ sep) = true :=
        List.rdropWhile_last_not (fun x => decide (x ≠ sep)) (text.rdropWhile (· = sep)) nil
      have ends : (dropLastWord sep text).getLast nil = sep := by simpa using stop
      exact .inr ⟨(dropLastWord sep text).dropLast, by conv => lhs; rw [← List.dropLast_append_getLast nil, ends]⟩

/-- Its words are all but the last. -/
theorem words_dropLastWord (some : words sep text ≠ []) : words sep (dropLastWord sep text) = (words sep text).dropLast := by
  obtain ⟨w, seps, split, ne, free, all, ends⟩ := dropLastWord_split some
  have last : words sep (w ++ seps) = [w] := by rw [words_append_seps all, words_run ne free]
  rcases ends with empty | ⟨front, ends⟩
  · rw [empty, List.nil_append] at split
    rw [empty, split, last]
    rfl
  · rw [ends, List.append_assoc, List.singleton_append] at split
    rw [ends, split, words_append_sep, words_append_sep, last, words_nil, List.append_nil, List.dropLast_concat]

/-- It starts as the text does. -/
theorem head?_dropLastWord (some : words sep text ≠ []) :
    (dropLastWord sep text).head? = .some sep ↔ text.head? = .some sep := by
  obtain ⟨w, seps, split, ne, free, -, -⟩ := dropLastWord_split some
  cases front : dropLastWord sep text with
  | nil =>
    rw [front, List.nil_append] at split
    obtain ⟨c, w, rfl⟩ := List.exists_cons_of_ne_nil ne
    rw [split]
    simpa using fun e : c = sep => free (by rw [e]; exact List.mem_cons_self)
  | cons c front' =>
    rw [front] at split
    rw [split]
    rfl

end Base
