import Aarch64Os.Kernel.ExecImage

/-!
# The arguments on the stack (`kernel/proc.c`)

`exec` copies the strings to the stack page from its top down, each at a multiple of 16, and then
their user addresses and a null pointer below them. The terminators are not copied: they are bytes
of a page that was clear, which nothing is copied to.
-/

namespace Aarch64Os.Kernel.Exec
set_option autoImplicit false
open Base

/-- The next multiple of 16. -/
def up16 (n : Nat) : Nat := (n + 15) / 16 * 16

/-- The room that the strings take. -/
def stringsSize (argv : List CStr) : Nat := (argv.map fun arg => up16 (arg.1.length + 1)).sum

/-- There are at most eight strings, and these and the pointers to them fit in the stack page. -/
def Fits (argv : List CStr) : Prop := argv.length ≤ 8 ∧ stringsSize argv + up16 (8 * (argv.length + 1)) ≤ PAGESIZE

instance (argv : List CStr) : Decidable (Fits argv) := inferInstanceAs (Decidable (_ ∧ _))

/-- Memory changes only in one page. -/
def OnlyPage (page : PageNo) (m m' : ByteMem) : Prop := ∀ a, a / PAGESIZE ≠ page → m' a = m a

/-- The stack page when the strings `done` have been copied, down to offset `lo`. -/
structure Pushed (m : ByteMem) (page : PageNo) (done : List CStr) (ustack : List Nat) (lo : Nat) : Prop where
  room : lo + stringsSize done = PAGESIZE
  aligned : lo % 16 = 0
  length : ustack.length = done.length
  few : done.length ≤ 8
  clear : ∀ d < lo, m (page * PAGESIZE + d) = 0
  strings : ∀ x ∈ done.zip ustack, USTACKBOTTOM + lo ≤ x.2 ∧ x.2 + x.1.1.length + 1 ≤ USTACKTOP ∧
    m.Holds (page * PAGESIZE + (x.2 - USTACKBOTTOM)) (x.1.1 ++ [0])
  below : (done.zip ustack).Pairwise fun x y => y.2 + y.1.1.length + 1 ≤ x.2

section Stack
variable {m m' m'' : ByteMem} {page : PageNo} {done : List CStr} {ustack : List Nat} {lo : Nat} {s : State}

theorem OnlyPage.trans (first : OnlyPage page m m') (second : OnlyPage page m' m'') : OnlyPage page m m'' :=
  fun a out => (second a out).trans (first a out)

/-- A copy into the page. -/
theorem onlyPage_store {off : Nat} {bytes : List Byte} (inside : off + bytes.length ≤ PAGESIZE) :
    OnlyPage page m (m.store (page * PAGESIZE + off) bytes) := by
  intro a out
  apply ByteMem.store_outside
  simp only [PAGESIZE] at *
  omega

theorem stringsSize_append (argv argv' : List CStr) : stringsSize (argv ++ argv') = stringsSize argv + stringsSize argv' := by
  simp [stringsSize]

theorem stringsSize_cons (arg : CStr) (argv : List CStr) : stringsSize (arg :: argv) = up16 (arg.1.length + 1) + stringsSize argv := by
  simp [stringsSize]

/-- Nothing has been copied to a page that is clear. -/
theorem pushed_nil (clear : ∀ d < PAGESIZE, m (page * PAGESIZE + d) = 0) : Pushed m page [] [] PAGESIZE where
  room := rfl
  aligned := rfl
  length := rfl
  few := Nat.zero_le _
  clear := clear
  strings := by simp
  below := List.Pairwise.nil

/-- One more string is copied. -/
theorem Pushed.push (h : Pushed m page done ustack lo) (arg : CStr) (more : done.length < 8) {o : Nat}
    (here : o + up16 (arg.1.length + 1) = lo) :
    Pushed (m.store (page * PAGESIZE + o) arg.1) page (done ++ [arg]) (ustack ++ [USTACKBOTTOM + o]) o := by
  have whole := h.aligned
  have room := h.room
  have top : USTACKTOP = USTACKBOTTOM + PAGESIZE := rfl
  have size : arg.1.length + 1 ≤ up16 (arg.1.length + 1) ∧ up16 (arg.1.length + 1) % 16 = 0 := by
    unfold up16
    omega
  -- nothing is copied behind the string, and to what is above it
  have above : ∀ a, page * PAGESIZE + o + arg.1.length ≤ a → m.store (page * PAGESIZE + o) arg.1 a = m a :=
    fun a le => ByteMem.store_outside m (.inr le)
  have zip : (done ++ [arg]).zip (ustack ++ [USTACKBOTTOM + o]) = done.zip ustack ++ [(arg, USTACKBOTTOM + o)] :=
    List.zip_append h.length.symm
  constructor
  · rw [stringsSize_append, stringsSize_cons]
    simp only [stringsSize, List.map_nil, List.sum_nil] at room ⊢
    omega
  · omega
  · simp [h.length]
  · rw [List.length_append, List.length_singleton]
    exact more
  · intro d lt
    rw [ByteMem.store_outside m (.inl (by omega))]
    exact h.clear d (by omega)
  · intro x mem
    rw [zip] at mem
    rcases List.mem_append.1 mem with old | new
    · obtain ⟨least, most, holds⟩ := h.strings x old
      have higher : o + arg.1.length ≤ x.2 - USTACKBOTTOM := by omega
      refine ⟨by omega, most, ?_⟩
      apply holds.congr
      rintro a le -
      apply above
      rw [Nat.add_assoc]
      exact (Nat.add_le_add_left higher _).trans le
    · obtain rfl := List.mem_singleton.1 new
      dsimp only
      refine ⟨Nat.le_refl _, by omega, ?_⟩
      rw [Nat.add_sub_cancel_left]
      apply ByteMem.Holds.snoc (m.store_holds _ arg.1)
      rw [above _ (Nat.le_refl _), Nat.add_assoc]
      exact h.clear _ (by omega)
  · rw [zip, List.pairwise_append]
    refine ⟨h.below, List.pairwise_singleton .., ?_⟩
    intro x old y new
    obtain rfl := List.mem_singleton.1 new
    obtain ⟨least, -, -⟩ := h.strings x old
    simp only
    omega

/-- The loop over the strings ends, and comes to the last exactly when they fit. -/
theorem pushStrings_runs (rest : List CStr) : ∀ {done : List CStr} {ustack : List Nat} {lo : Nat} {s : State},
    Pushed s.mem page done ustack lo → ∃ r m, pushStrings (page * PAGESIZE) rest lo ustack s = .ok (r, { s with mem := m }) ∧
      OnlyPage page s.mem m ∧
      (r = none → ¬ ((done ++ rest).length ≤ 8 ∧ stringsSize (done ++ rest) ≤ PAGESIZE)) ∧
      ∀ sp us, r = some (sp, us) → ∃ lo' : Nat, sp = lo' ∧ Pushed m page (done ++ rest) us lo' := by
  induction rest with
  | nil =>
    intro done ustack lo s h
    refine ⟨_, s.mem, rfl, fun _ _ => rfl, ?_, ?_⟩
    · intro never
      cases never
    · intro sp us same
      cases same
      exact ⟨lo, rfl, by rwa [List.append_nil]⟩
  | cons arg rest ih =>
    intro done ustack lo s h
    have room := h.room
    have whole := h.aligned
    unfold pushStrings
    dsimp only
    split
    case isTrue many =>
      refine ⟨none, s.mem, rfl, fun _ _ => rfl, ?_, ?_⟩
      · rintro - ⟨few, -⟩
        rw [h.length] at many
        simp only [List.length_append, List.length_cons] at few
        omega
      · intro _ _ never
        cases never
    case isFalse more =>
    split
    case isTrue low =>
      refine ⟨none, s.mem, rfl, fun _ _ => rfl, ?_, ?_⟩
      · rintro - ⟨-, fits⟩
        rw [stringsSize_append, stringsSize_cons] at fits
        unfold up16 at fits
        omega
      · intro _ _ never
        cases never
    case isFalse fits =>
    obtain ⟨o, place⟩ : ∃ o : Nat, ((lo : Int) - (arg.1.length + 1)) / 16 * 16 = o := Int.eq_ofNat_of_zero_le (not_lt.1 fits)
    have here : o + up16 (arg.1.length + 1) = lo := by
      unfold up16
      omega
    have address : USTACKTOP - (PAGESIZE - o) = USTACKBOTTOM + o := by
      have top : USTACKTOP = USTACKBOTTOM + PAGESIZE := rfl
      omega
    rw [h.length] at more
    have pushed := h.push arg (by omega) here
    rw [place, Int.toNat_natCast, address]
    obtain ⟨r, m, run, only, fails, done'⟩ := ih (s := { s with mem := s.mem.store (page * PAGESIZE + o) arg.1 }) pushed
    rw [List.append_assoc, List.singleton_append] at fails done'
    have inside : o + arg.1.length ≤ PAGESIZE := by
      unfold up16 at here
      omega
    refine ⟨r, m, ?_, (onlyPage_store inside).trans only, fails, done'⟩
    rw [bind_runs (memcpy_runs ..)]
    exact run

/-- Pointers, one behind the other. -/
theorem pointers_length (ptrs : List Nat) : (ptrs.flatMap (leBytes 8)).length = 8 * ptrs.length := by
  induction ptrs with
  | nil => rfl
  | cons p ptrs ih =>
    rw [List.flatMap_cons, List.length_append, ih, leBytes_length, List.length_cons]
    omega

/-- The stack page that `exec` has built, with `sp` as an offset. -/
structure Laid (m : ByteMem) (page : PageNo) (argv : List CStr) (ptrs : List Nat) (sp : Nat) : Prop where
  few : argv.length ≤ 8
  length : ptrs.length = argv.length
  aligned : sp % 16 = 0
  inside : sp + 8 * (argv.length + 1) ≤ PAGESIZE
  pointers : m.Holds (page * PAGESIZE + sp) ((ptrs ++ [0]).flatMap (leBytes 8))
  strings : ∀ x ∈ argv.zip ptrs, USTACKBOTTOM + sp + 8 * (argv.length + 1) ≤ x.2 ∧ x.2 + x.1.1.length + 1 ≤ USTACKTOP ∧
    m.Holds (page * PAGESIZE + (x.2 - USTACKBOTTOM)) (x.1.1 ++ [0])
  below : (argv.zip ptrs).Pairwise fun x y => y.2 + y.1.1.length + 1 ≤ x.2

/-- `exec` builds the stack exactly when the arguments fit. -/
theorem pushArgs_runs (argv : List CStr) (clear : ∀ d < PAGESIZE, s.mem (page * PAGESIZE + d) = 0) :
    ∃ r m, pushArgs (page * PAGESIZE) argv s = .ok (r, { s with mem := m }) ∧ OnlyPage page s.mem m ∧ (r ≠ none ↔ Fits argv) ∧
      ∀ argc sp, r = some (argc, sp) → argc = argv.length ∧ ∃ ptrs o, sp = USTACKBOTTOM + o ∧ Laid m page argv ptrs o := by
  obtain ⟨r, m, run, only, fails, pushed⟩ := pushStrings_runs argv (pushed_nil clear)
  rw [List.nil_append] at fails pushed
  unfold pushArgs
  rw [bind_runs run]
  cases r with
  | none =>
    refine ⟨none, m, rfl, only, ?_, ?_⟩
    · have fails := fails rfl
      unfold Fits
      simp only [ne_eq, not_true_eq_false, false_iff]
      omega
    · intro _ _ never
      cases never
  | some r =>
  obtain ⟨sp, ustack⟩ := r
  obtain ⟨lo, rfl, h⟩ := pushed sp ustack rfl
  have room := h.room
  have whole := h.aligned
  have few := h.few
  have length := h.length
  dsimp only
  split
  case isTrue low =>
    refine ⟨none, m, rfl, only, ?_, ?_⟩
    · unfold Fits up16
      simp only [ne_eq, not_true_eq_false, false_iff]
      omega
    · intro _ _ never
      cases never
  case isFalse fits =>
  obtain ⟨o, place⟩ : ∃ o : Nat, ((lo : Int) - 8 * (ustack.length + 1)) / 16 * 16 = o := Int.eq_ofNat_of_zero_le (not_lt.1 fits)
  have address : USTACKTOP - (PAGESIZE - o) = USTACKBOTTOM + o := by
    have top : USTACKTOP = USTACKBOTTOM + PAGESIZE := rfl
    omega
  have size : ((ustack ++ [0]).flatMap (leBytes 8)).length = 8 * (argv.length + 1) := by
    rw [pointers_length, List.length_append, length, List.length_singleton]
  rw [place, Int.toNat_natCast, address, bind_runs (memcpy_runs ..)]
  refine ⟨_, _, rfl, only.trans (onlyPage_store (by omega)), ?_, ?_⟩
  · unfold Fits up16
    simp only [ne_eq, reduceCtorEq, not_false_eq_true, true_iff]
    omega
  · intro argc sp same
    cases same
    refine ⟨length, ustack, o, rfl, ?_⟩
    constructor
    · exact few
    · exact length
    · omega
    · omega
    · exact ByteMem.store_holds m _ _
    · intro x mem
      obtain ⟨least, most, holds⟩ := h.strings x mem
      refine ⟨by omega, most, ?_⟩
      apply holds.congr
      intro a le _
      apply ByteMem.store_outside
      omega
    · exact h.below

end Stack

end Aarch64Os.Kernel.Exec
