import Aarch64Os.Kernel.Ext2.Path

/-!
# What `skippath` writes and where it goes on (`kernel/ext2.c`)

The copying loop tests the length behind the store, and against the size of the buffer: a component of just
that size is written one byte too far. Both traversals go on with the pointer that was returned.
-/

namespace Aarch64Os.Kernel
set_option autoImplicit false
open Base

/-- The first component of a path. -/
def firstElem (path : List Chr) : List Chr := (path.dropWhile (· = SLASH)).takeWhile (· ≠ SLASH)

/-- What is asked of a call: nothing is written outside of the buffer. Unless an error is reported, a NUL is
in the buffer, and the pointer is one into the path, behind its start if there is anything to go past. -/
def SkipsRight (path : List Chr) (name : NameBuf) : Prop :=
  ∃ name' r, skippath path name = .ok (name', r) ∧
    ∀ rest, r = some rest → 0 ∈ name'.mem ∧ rest <:+ path ∧ (path ≠ [] → rest.length < path.length)

/-- The calls that the traversals of a path may make: on the path, and on what a call has returned. -/
inductive SkipCall (path : List Chr) : List Chr → Prop
  | first : SkipCall path path
  | next {p rest : List Chr} {name name' : NameBuf} : SkipCall path p → skippath p name = .ok (name', some rest) → SkipCall path rest

section Calls
variable {path p w rest : List Chr} {name name' : NameBuf}

theorem firstElem_nil (ending : path.dropWhile (· = SLASH) = []) : firstElem path = [] := by
  rw [firstElem, ending]
  rfl

theorem firstElem_word (at_w : path.dropWhile (· = SLASH) = w ++ rest) (free : SLASH ∉ w) (stop : rest = [] ∨ rest.head? = some SLASH) :
    firstElem path = w := by
  have run : ∀ c ∈ w, decide (c ≠ SLASH) = true := fun c mem => decide_eq_true fun same => free (same ▸ mem)
  have ends : rest.takeWhile (· ≠ SLASH) = [] := by
    rcases stop with rfl | stop
    · rfl
    · obtain ⟨r, rfl⟩ := List.head?_eq_some_iff.1 stop
      exact List.takeWhile_cons_of_neg (by simp)
  rw [firstElem, at_w, List.takeWhile_append_of_pos run, ends, List.append_nil]

/-- **One call** does what is asked where the first component leaves room for its NUL. -/
theorem skipsRight_iff (path : List Chr) (name : NameBuf) : SkipsRight path name ↔ (firstElem path).length < DIRENT_NAME_MAX := by
  rcases words_cases SLASH path with ⟨ending, -⟩ | ⟨w, rest, at_w, ne, free, stop, -⟩
  · rw [firstElem_nil ending]
    refine ⟨fun _ => by decide, fun _ => ⟨name.put [], some [], skippath_end ending name, ?_⟩⟩
    intro rest same
    cases same
    obtain ⟨tail, mem⟩ := name.put_mem (w := []) (by decide)
    refine ⟨?_, List.nil_suffix, fun some => List.length_pos_of_ne_nil some⟩
    rw [mem]
    exact List.mem_cons_self
  · rw [firstElem_word at_w free stop]
    constructor
    · intro right
      obtain ⟨name', r, runs, -⟩ := right
      by_contra long
      rw [skippath_long at_w free (Nat.le_of_not_lt long) name] at runs
      cases runs
    · intro short
      refine ⟨name.put w, some rest.tail, skippath_word at_w free stop short name, ?_⟩
      intro r same
      cases same
      obtain ⟨tail, mem⟩ := name.put_mem short
      have within : w ++ rest <:+ path := at_w ▸ List.dropWhile_suffix _
      have behind : rest.tail <:+ rest := List.tail_suffix rest
      refine ⟨?_, behind.trans ((List.suffix_append w rest).trans within), fun _ => ?_⟩
      · rw [mem]
        exact List.mem_append_right _ List.mem_cons_self
      · have pos := List.length_pos_of_ne_nil ne
        have total := within.length_le
        have tail := behind.length_le
        rw [List.length_append] at total
        omega

theorem SkipCall.trans (called : SkipCall path p) (next : SkipCall p rest) : SkipCall path rest := by
  induction next with
  | first => exact called
  | next _ skip ih => exact ih.next skip

/-- Where a call goes on, there are the other words of the path. -/
theorem words_skippath (skip : skippath path name = .ok (name', some rest)) : ∀ v ∈ words SLASH rest, v ∈ words SLASH path := by
  intro v mem
  rcases words_cases SLASH path with ⟨ending, -⟩ | ⟨w, behind, at_w, ne, free, stop, parts⟩
  · rw [skippath_end ending name] at skip
    cases skip
    rw [words_nil] at mem
    exact absurd mem List.not_mem_nil
  · by_cases short : w.length < DIRENT_NAME_MAX
    · rw [skippath_word at_w free stop short name] at skip
      cases skip
      rw [parts]
      exact List.mem_cons_of_mem _ mem
    · rw [skippath_long at_w free (Nat.le_of_not_lt short) name] at skip
      cases skip

theorem firstElem_mem (some : firstElem path ≠ []) : firstElem path ∈ words SLASH path := by
  rcases words_cases SLASH path with ⟨ending, -⟩ | ⟨w, behind, at_w, ne, free, stop, parts⟩
  · exact absurd (firstElem_nil ending) some
  · rw [firstElem_word at_w free stop, parts]
    exact List.mem_cons_self

/-- The calls on a path whose words are short are calls on such paths. -/
theorem SkipCall.short (called : SkipCall path p) (short : ∀ w ∈ words SLASH path, w.length < DIRENT_NAME_MAX) :
    ∀ w ∈ words SLASH p, w.length < DIRENT_NAME_MAX := by
  induction called with
  | first => exact short
  | next _ skip ih => exact fun w mem => ih w (words_skippath skip w mem)

/-- A path on which every call does what is asked has short words only. -/
theorem words_short (right : ∀ p, SkipCall path p → ∀ name, SkipsRight p name) : ∀ w ∈ words SLASH path, w.length < DIRENT_NAME_MAX := by
  induction size : path.length using Nat.strong_induction_on generalizing path with
  | _ n ih =>
    subst size
    rcases words_cases SLASH path with ⟨-, none⟩ | ⟨w, rest, at_w, ne, free, stop, parts⟩
    · rw [none]
      exact fun _ mem => absurd mem List.not_mem_nil
    · have short : w.length < DIRENT_NAME_MAX := by
        rw [← firstElem_word at_w free stop]
        exact (skipsRight_iff path NameBuf.zero).1 (right path .first _)
      have next : SkipCall path rest.tail := SkipCall.first.next (skippath_word at_w free stop short NameBuf.zero)
      have total := (at_w ▸ List.dropWhile_suffix _ : w ++ rest <:+ path).length_le
      have pos := List.length_pos_of_ne_nil ne
      rw [List.length_append] at total
      have shorter : rest.tail.length < path.length := by
        rw [List.length_tail]
        omega
      rw [parts]
      intro v mem
      rcases List.mem_cons.1 mem with rfl | mem
      · exact short
      · exact ih _ shorter (fun p called => right p (next.trans called)) rfl v mem

/-- **`skippath`**: a call writes in the buffer only and returns a pointer into the path, and so on, just where
the first component has less than `DIRENT_NAME_MAX` characters; every call on the way along a path does, just
where every component has. -/
theorem skippath_right_iff (path : List Chr) :
    (∀ name, SkipsRight path name ↔ (firstElem path).length < DIRENT_NAME_MAX) ∧
      ((∀ p, SkipCall path p → ∀ name, SkipsRight p name) ↔ ∀ w ∈ words SLASH path, w.length < DIRENT_NAME_MAX) := by
  refine ⟨skipsRight_iff path, words_short, fun short p called name => (skipsRight_iff p name).2 ?_⟩
  by_cases empty : firstElem p = []
  · rw [empty]
    decide
  · exact called.short short _ (firstElem_mem empty)

/-- A component of `DIRENT_NAME_MAX` characters: its NUL goes behind the buffer. -/
theorem skippath_past_end : ¬ ∀ (path : List Chr) (name : NameBuf), SkipsRight path name := by
  intro right
  have short := (skipsRight_iff _ _).1 (right (List.replicate DIRENT_NAME_MAX ⟨97#8, by decide⟩) NameBuf.zero)
  rw [firstElem, List.dropWhile_replicate, if_neg (by decide), List.takeWhile_replicate, if_pos (by decide), List.length_replicate] at short
  exact absurd short (Nat.lt_irrefl _)

end Calls

end Aarch64Os.Kernel
