import Aarch64Os.Kernel.PrintNumber
import Aarch64Os.Kernel.Strings

/-!
# Formatted output (`kernel/printk.c`, `usr/ulib.c`)

`vprintk` and `printf` scan the format in one way and differ in how they write. A string is the characters
before its NUL; what follows that belongs to somebody else. The lock of `vprintk` is left out.
-/

namespace Aarch64Os
set_option autoImplicit false
open Base

/-- An argument: an `int` or `u32`, a `u64`, or a `char *`, which may be `NULL`. -/
inductive Arg
  | word (v : BitVec 32)
  | long (v : BitVec 64)
  | str (s : Option (List Kernel.Chr))

/-- The next argument, if it is an `int` or a `u32`, and those behind it. -/
def takeWord : List Arg → Option (BitVec 32 × List Arg)
  | .word v :: args => some (v, args)
  | _ => none

/-- The next argument, if it is a `u64`. -/
def takeLong : List Arg → Option (BitVec 64 × List Arg)
  | .long v :: args => some (v, args)
  | _ => none

/-- The next argument, if it is a `char *`. -/
def takeStr : List Arg → Option (Option (List Kernel.Chr) × List Arg)
  | .str s :: args => some (s, args)
  | _ => none

/-- `va_arg`, for an argument that must be of the type. -/
def vaArg {α : Type} : Option (α × List Arg) → OutM (α × List Arg)
  | some next => pure next
  | none => throw .undefined

/-- `'%'`. -/
def PERCENT : BitVec 8 := 37#8

/-- `"(null)"`. -/
def nullText : List (BitVec 8) := [40#8, 110#8, 117#8, 108#8, 108#8, 41#8]

/-- The `switch` of `vprintk`; what is left of the arguments. -/
def Kernel.directive (c : BitVec 8) (args : List Arg) : OutM (List Arg) :=
  if c = 100#8 then do -- 'd'
    let (v, args) ← vaArg (takeWord args)
    printiu32 v 10#32 true
    pure args
  else if c = 117#8 then do -- 'u'
    let (v, args) ← vaArg (takeWord args)
    printiu32 v 10#32 false
    pure args
  else if c = 120#8 then do -- 'x'
    let (v, args) ← vaArg (takeLong args)
    printiu64 v 16#32 false
    pure args
  else if c = 112#8 then do -- 'p'
    csputc 48#8
    csputc 120#8
    let (v, args) ← vaArg (takeLong args)
    printiu64 v 16#32 false
    pure args
  else if c = 99#8 then do -- 'c'
    let (v, args) ← vaArg (takeWord args)
    csputc (v.setWidth 8)
    pure args
  else if c = 115#8 then do -- 's'
    let (s, args) ← vaArg (takeStr args)
    (s.elim nullText Kernel.bytesOf).forM csputc
    pure args
  else if c = PERCENT then do
    csputc PERCENT
    pure args
  else do
    csputc PERCENT
    csputc c
    pure args

/-- The `switch` of `printf`. -/
def Usr.directive (c : BitVec 8) (args : List Arg) : OutM (List Arg) :=
  if c = 100#8 then do -- 'd'
    let (v, args) ← vaArg (takeWord args)
    uprintiu32 v 10#32 true
    pure args
  else if c = 117#8 then do -- 'u'
    let (v, args) ← vaArg (takeWord args)
    uprintiu32 v 10#32 false
    pure args
  else if c = 120#8 then do -- 'x'
    let (v, args) ← vaArg (takeLong args)
    uprintiu64 v 16#32 false
    pure args
  else if c = 112#8 then do -- 'p'
    write [48#8, 120#8]
    let (v, args) ← vaArg (takeLong args)
    uprintiu64 v 16#32 false
    pure args
  else if c = 99#8 then do -- 'c'
    let (v, args) ← vaArg (takeWord args)
    write [v.setWidth 8]
    pure args
  else if c = 115#8 then do -- 's'
    let (s, args) ← vaArg (takeStr args)
    write (s.elim nullText Kernel.bytesOf)
    pure args
  else if c = PERCENT then do
    write [c]
    pure args
  else do
    write [PERCENT]
    write [c]
    pure args

/-- `i + 1`, for an `int`. -/
def intSucc (i : Nat) : OutM Nat := if i + 1 < 2 ^ 31 then pure (i + 1) else throw .undefined

/-- The loop over the format, from index `i` on. Behind a `%` at the end the index is moved past the NUL, and
there is no telling what is read there. -/
def scanFormat (put : BitVec 8 → OutM Unit) (directive : BitVec 8 → List Arg → OutM (List Arg)) : Nat → List Kernel.Chr → List Arg → OutM Unit
  | _, [], _ => pure ()
  | i, c :: fmt, args => do
    if c.val = PERCENT then
      let i ← intSucc i
      match fmt with
      | [] => do
        let _ ← directive 0 args
        throw .undefined
      | c :: fmt => do
        let args ← directive c.val args
        let i ← intSucc i
        scanFormat put directive i fmt args
    else do
      put c.val
      let i ← intSucc i
      scanFormat put directive i fmt args

/-- `vprintk`. -/
def Kernel.vprintk (fmt : List Kernel.Chr) (args : List Arg) : OutM Unit := scanFormat csputc Kernel.directive 0 fmt args

/-- `printf`. -/
def Usr.printf (fmt : List Kernel.Chr) (args : List Arg) : OutM Unit := scanFormat (fun c => write [c]) Usr.directive 0 fmt args

/-- What a directive is to be replaced by, and the arguments behind it, if the first of them is of its type. -/
def rendering (c : BitVec 8) (args : List Arg) : Option (List (BitVec 8) × List Arg) :=
  if c = 100#8 then (takeWord args).map fun next => (decimals 10 next.1.toInt, next.2)
  else if c = 117#8 then (takeWord args).map fun next => (decimals 10 next.1.toNat, next.2)
  else if c = 120#8 then (takeLong args).map fun next => (decimals 16 next.1.toNat, next.2)
  else if c = 112#8 then (takeLong args).map fun next => ([48#8, 120#8] ++ decimals 16 next.1.toNat, next.2)
  else if c = 99#8 then (takeWord args).map fun next => ([next.1.setWidth 8], next.2)
  else if c = 115#8 then (takeStr args).map fun next => (next.1.elim nullText Kernel.bytesOf, next.2)
  else if c = PERCENT then some ([PERCENT], args)
  else some ([PERCENT, c], args)

/-- What a format stands for with a list of arguments that matches it: each directive is replaced, and any other
character is copied, a `%` at the end too. -/
def rendered : List Kernel.Chr → List Arg → Option (List (BitVec 8))
  | [], args => if args = [] then some [] else none
  | c :: fmt, args =>
    if c.val = PERCENT then
      match fmt with
      | [] => if args = [] then some [PERCENT] else none
      | c :: fmt => (rendering c.val args).bind fun r => (rendered fmt r.2).map (r.1 ++ ·)
    else (rendered fmt args).map (c.val :: ·)

/-- The last character is a `%` that no directive has taken in. -/
def Dangling : List Kernel.Chr → Prop
  | [] => False
  | c :: fmt =>
    if c.val = PERCENT then
      match fmt with
      | [] => True
      | _ :: fmt => Dangling fmt
    else Dangling fmt

instance decidableDangling : (fmt : List Kernel.Chr) → Decidable (Dangling fmt)
  | [] => isFalse id
  | c :: fmt => by
    unfold Dangling
    split
    · cases fmt with
      | nil => exact isTrue trivial
      | cons d fmt => exact decidableDangling fmt
    · exact decidableDangling fmt

section Scan
variable {f : List (BitVec 8) → List (BitVec 8)} {put : BitVec 8 → OutM Unit} {directive : BitVec 8 → List Arg → OutM (List Arg)}
  {fmt : List Kernel.Chr} {args : List Arg} {r out : List (BitVec 8)}

/-- Writing with what becomes of it: a character is put, and a directive is replaced. -/
structure Emits (f : List (BitVec 8) → List (BitVec 8)) (put : BitVec 8 → OutM Unit) (directive : BitVec 8 → List Arg → OutM (List Arg)) : Prop where
  append : ∀ r s, f (r ++ s) = f r ++ f s
  put : ∀ c out, put c out = .ok ((), out ++ f [c])
  directive : ∀ c args r rest, rendering c args = some (r, rest) → ∀ out, directive c args out = .ok (rest, out ++ f r)

theorem intSucc_runs {i : Nat} (lt : i + 1 < 2 ^ 31) : intSucc i out = .ok (i + 1, out) := by
  unfold intSucc
  rw [if_pos lt]
  rfl

theorem intSucc_lt {i i' : Nat} {out' : List (BitVec 8)} (run : intSucc i out = .ok (i', out')) : i' = i + 1 ∧ i + 1 < 2 ^ 31 := by
  unfold intSucc at run
  split at run
  · rename_i lt
    cases run
    exact ⟨rfl, lt⟩
  · cases run

theorem rendered_percent {c d : Kernel.Chr} (percent : c.val = PERCENT) (given : rendered (c :: d :: fmt) args = some r) :
    ∃ r₁ rest r₂, rendering d.val args = some (r₁, rest) ∧ rendered fmt rest = some r₂ ∧ r = r₁ ++ r₂ := by
  rw [rendered, if_pos percent] at given
  obtain ⟨⟨r₁, rest⟩, first, given⟩ := Option.bind_eq_some_iff.1 given
  obtain ⟨r₂, second, same⟩ := Option.map_eq_some_iff.1 given
  exact ⟨r₁, rest, r₂, first, second, same.symm⟩

theorem rendered_other {c : Kernel.Chr} (other : c.val ≠ PERCENT) (given : rendered (c :: fmt) args = some r) :
    ∃ r', rendered fmt args = some r' ∧ r = c.val :: r' := by
  unfold rendered at given
  rw [if_neg other] at given
  obtain ⟨r', rest, same⟩ := Option.map_eq_some_iff.1 given
  exact ⟨r', rest, same.symm⟩

/-- **The loop over the format** writes what this stands for. -/
theorem Emits.scan_runs (emits : Emits f put directive) (fmt : List Kernel.Chr) : ∀ {i : Nat} {args : List Arg} {r : List (BitVec 8)} (out),
    rendered fmt args = some r → i + fmt.length < 2 ^ 31 → ¬ Dangling fmt →
    scanFormat put directive i fmt args out = .ok ((), out ++ f r) := by
  fun_induction Dangling fmt with
  | case1 =>
    intro i args r out given _ _
    rw [rendered] at given
    obtain ⟨-, same⟩ := Option.ite_none_right_eq_some.1 given
    cases same
    have empty : f [] = [] := by simpa using emits.append [] []
    rw [empty, List.append_nil]
    rfl
  | case2 c percent => exact fun _ _ _ dangling => absurd trivial dangling
  | case3 c percent d fmt ih =>
    intro i args r out given short closed
    obtain ⟨r₁, rest, r₂, first, second, rfl⟩ := rendered_percent percent given
    simp only [List.length_cons] at short
    rw [scanFormat, if_pos percent, bind_runs (intSucc_runs (by omega))]
    dsimp only
    rw [bind_runs (emits.directive d.val args r₁ rest first out), bind_runs (intSucc_runs (by omega)), ih _ second (by omega) closed,
      emits.append, List.append_assoc]
  | case4 c fmt other ih =>
    intro i args r out given short closed
    obtain ⟨r', rest, rfl⟩ := rendered_other other given
    simp only [List.length_cons] at short
    rw [scanFormat, if_neg other, bind_runs (emits.put c.val out), bind_runs (intSucc_runs (by omega)), ih _ rest (by omega) closed,
      show c.val :: r' = [c.val] ++ r' from rfl, emits.append, List.append_assoc]

/-- It comes to an end only where the index does not overflow and no `%` is left. -/
theorem scan_returned (fmt : List Kernel.Chr) : ∀ {i : Nat} {args : List Arg} {out out' : List (BitVec 8)}, i < 2 ^ 31 →
    scanFormat put directive i fmt args out = .ok ((), out') → i + fmt.length < 2 ^ 31 ∧ ¬ Dangling fmt := by
  fun_induction Dangling fmt with
  | case1 => exact fun low _ => ⟨low, id⟩
  | case2 c percent =>
    intro i args out out' low run
    rw [scanFormat, if_pos percent] at run
    obtain ⟨i', u, -, run⟩ := run_bind.1 run
    obtain ⟨_, _, -, run⟩ := run_bind.1 run
    cases run
  | case3 c percent d fmt ih =>
    intro i args out out' low run
    rw [scanFormat, if_pos percent] at run
    obtain ⟨i₁, u, succ, run⟩ := run_bind.1 run
    obtain ⟨rest, v, -, run⟩ := run_bind.1 run
    obtain ⟨i₂, w, succ', run⟩ := run_bind.1 run
    obtain ⟨rfl, -⟩ := intSucc_lt succ
    obtain ⟨rfl, lt⟩ := intSucc_lt succ'
    obtain ⟨short, closed⟩ := ih lt run
    refine ⟨?_, closed⟩
    simp only [List.length_cons]
    omega
  | case4 c fmt other ih =>
    intro i args out out' low run
    rw [scanFormat, if_neg other] at run
    obtain ⟨_, u, -, run⟩ := run_bind.1 run
    obtain ⟨i₁, v, succ, run⟩ := run_bind.1 run
    obtain ⟨rfl, lt⟩ := intSucc_lt succ
    obtain ⟨short, closed⟩ := ih lt run
    refine ⟨?_, closed⟩
    simp only [List.length_cons]
    omega

end Scan

section Directives
variable {args rest : List Arg} {r out : List (BitVec 8)}

theorem vaArg_runs {α : Type} {x : Option (α × List Arg)} {next : α × List Arg} (there : x = some next) : vaArg x out = .ok (next, out) := by
  rw [there]
  rfl

theorem decimals_shown {b : Nat} (more : 1 < b) (le : b ≤ 16) (v : Int) : (decimals b v).flatMap shown = decimals b v :=
  shown_all (decimals_clean more le v)

/-- The kernel writes what the console makes of each character. -/
theorem kernel_emits : Emits (fun r => r.flatMap shown) Kernel.csputc Kernel.directive := by
  refine ⟨fun r s => List.flatMap_append, fun c out => ?_, ?_⟩
  · rw [List.flatMap_singleton]
    exact csputc_runs c out
  intro c args r rest given out
  unfold rendering at given
  unfold Kernel.directive
  by_cases d : c = 100#8
  · rw [if_pos d] at given ⊢
    obtain ⟨⟨v, rest⟩, there, same⟩ := Option.map_eq_some_iff.1 given
    cases same
    rw [bind_runs (vaArg_runs there)]
    dsimp only
    rw [bind_runs (printiu32_runs (.inl rfl) true out v).1, decimals_shown (by decide) (by decide)]
    rfl
  rw [if_neg d] at given ⊢
  by_cases u : c = 117#8
  · rw [if_pos u] at given ⊢
    obtain ⟨⟨v, rest⟩, there, same⟩ := Option.map_eq_some_iff.1 given
    cases same
    rw [bind_runs (vaArg_runs there)]
    dsimp only
    rw [bind_runs (printiu32_runs (.inl rfl) false out v).1, decimals_shown (by decide) (by decide)]
    rfl
  rw [if_neg u] at given ⊢
  by_cases x : c = 120#8
  · rw [if_pos x] at given ⊢
    obtain ⟨⟨v, rest⟩, there, same⟩ := Option.map_eq_some_iff.1 given
    cases same
    rw [bind_runs (vaArg_runs there)]
    dsimp only
    rw [bind_runs (printiu64_runs (.inr rfl) false out v).1, decimals_shown (by decide) (by decide)]
    rfl
  rw [if_neg x] at given ⊢
  by_cases p : c = 112#8
  · rw [if_pos p] at given ⊢
    obtain ⟨⟨v, rest⟩, there, same⟩ := Option.map_eq_some_iff.1 given
    cases same
    rw [bind_runs (csputc_runs _ out), bind_runs (csputc_runs _ _), bind_runs (vaArg_runs there)]
    dsimp only
    rw [bind_runs (printiu64_runs (.inr rfl) false _ v).1, List.flatMap_append, decimals_shown (by decide) (by decide), List.append_assoc, List.append_assoc]
    rfl
  rw [if_neg p] at given ⊢
  by_cases ch : c = 99#8
  · rw [if_pos ch] at given ⊢
    obtain ⟨⟨v, rest⟩, there, same⟩ := Option.map_eq_some_iff.1 given
    cases same
    rw [bind_runs (vaArg_runs there)]
    dsimp only
    rw [bind_runs (csputc_runs _ out), List.flatMap_singleton]
    rfl
  rw [if_neg ch] at given ⊢
  by_cases st : c = 115#8
  · rw [if_pos st] at given ⊢
    obtain ⟨⟨v, rest⟩, there, same⟩ := Option.map_eq_some_iff.1 given
    cases same
    rw [bind_runs (vaArg_runs there)]
    dsimp only
    rw [bind_runs (csputs_runs _ out)]
    rfl
  rw [if_neg st] at given ⊢
  by_cases percent : c = PERCENT
  · rw [if_pos percent] at given ⊢
    cases given
    rw [bind_runs (csputc_runs _ out), List.flatMap_singleton]
    rfl
  · rw [if_neg percent] at given ⊢
    cases given
    rw [bind_runs (csputc_runs _ out), bind_runs (csputc_runs _ _), List.append_assoc, List.flatMap_cons, List.flatMap_singleton]
    rfl

/-- The user library writes the characters. -/
theorem user_emits : Emits id (fun c => Usr.write [c]) Usr.directive := by
  refine ⟨fun r s => rfl, fun c out => write_runs [c] out, ?_⟩
  intro c args r rest given out
  unfold rendering at given
  unfold Usr.directive
  by_cases d : c = 100#8
  · rw [if_pos d] at given ⊢
    obtain ⟨⟨v, rest⟩, there, same⟩ := Option.map_eq_some_iff.1 given
    cases same
    rw [bind_runs (vaArg_runs there)]
    dsimp only
    rw [bind_runs (printiu32_runs (.inl rfl) true out v).2]
    rfl
  rw [if_neg d] at given ⊢
  by_cases u : c = 117#8
  · rw [if_pos u] at given ⊢
    obtain ⟨⟨v, rest⟩, there, same⟩ := Option.map_eq_some_iff.1 given
    cases same
    rw [bind_runs (vaArg_runs there)]
    dsimp only
    rw [bind_runs (printiu32_runs (.inl rfl) false out v).2]
    rfl
  rw [if_neg u] at given ⊢
  by_cases x : c = 120#8
  · rw [if_pos x] at given ⊢
    obtain ⟨⟨v, rest⟩, there, same⟩ := Option.map_eq_some_iff.1 given
    cases same
    rw [bind_runs (vaArg_runs there)]
    dsimp only
    rw [bind_runs (printiu64_runs (.inr rfl) false out v).2]
    rfl
  rw [if_neg x] at given ⊢
  by_cases p : c = 112#8
  · rw [if_pos p] at given ⊢
    obtain ⟨⟨v, rest⟩, there, same⟩ := Option.map_eq_some_iff.1 given
    cases same
    rw [bind_runs (write_runs _ out), bind_runs (vaArg_runs there)]
    dsimp only
    rw [bind_runs (printiu64_runs (.inr rfl) false _ v).2, List.append_assoc]
    rfl
  rw [if_neg p] at given ⊢
  by_cases ch : c = 99#8
  · rw [if_pos ch] at given ⊢
    obtain ⟨⟨v, rest⟩, there, same⟩ := Option.map_eq_some_iff.1 given
    cases same
    rw [bind_runs (vaArg_runs there)]
    dsimp only
    rw [bind_runs (write_runs _ out)]
    rfl
  rw [if_neg ch] at given ⊢
  by_cases st : c = 115#8
  · rw [if_pos st] at given ⊢
    obtain ⟨⟨v, rest⟩, there, same⟩ := Option.map_eq_some_iff.1 given
    cases same
    rw [bind_runs (vaArg_runs there)]
    dsimp only
    rw [bind_runs (write_runs _ out)]
    rfl
  rw [if_neg st] at given ⊢
  by_cases percent : c = PERCENT
  · rw [if_pos percent] at given ⊢
    cases given
    rw [bind_runs (write_runs _ out), percent]
    rfl
  · rw [if_neg percent] at given ⊢
    cases given
    rw [bind_runs (write_runs _ out), bind_runs (write_runs _ _), List.append_assoc]
    rfl

/-- A console shows as much as it is given only where nothing is taken back. -/
theorem clean_of_shown : ∀ {r : List (BitVec 8)}, r.flatMap shown = r → Kernel.BACKSPACE ∉ r := by
  have longer : ∀ r : List (BitVec 8), r.length ≤ (r.flatMap shown).length := by
    intro r
    induction r with
    | nil => exact le_rfl
    | cons c r ih =>
      rw [List.flatMap_cons, List.length_append, List.length_cons, shown]
      split
      · simp only [List.length_cons, List.length_nil]
        omega
      · simp only [List.length_cons, List.length_nil]
        omega
  intro r same mem
  obtain ⟨a, b, rfl⟩ := List.append_of_mem mem
  have length := congrArg List.length same
  have front := longer a
  have back := longer b
  rw [List.flatMap_append, List.flatMap_cons, List.length_append, List.length_append, List.length_append, List.length_cons, shown, if_pos rfl] at length
  simp only [List.length_cons, List.length_nil] at length
  omega

/-- Both functions write this, and nothing else, and read no more than the format. -/
def Print (fmt : List Kernel.Chr) (args : List Arg) (r : List (BitVec 8)) : Prop :=
  ∀ out, Kernel.vprintk fmt args out = .ok ((), out ++ r) ∧ Usr.printf fmt args out = .ok ((), out ++ r)

/-- **Formats.** With arguments that match it, both write what a format stands for exactly when its last character is
no `%` of its own, it is shorter than an `int` can count, and what is to be written has no DEL. -/
theorem print_iff {fmt : List Kernel.Chr} {args : List Arg} {r : List (BitVec 8)} (given : rendered fmt args = some r) :
    Print fmt args r ↔ ¬ Dangling fmt ∧ fmt.length < 2 ^ 31 ∧ Kernel.BACKSPACE ∉ r := by
  constructor
  · intro print
    obtain ⟨kernel, user⟩ := print []
    obtain ⟨short, closed⟩ := scan_returned fmt (by decide) user
    rw [Nat.zero_add] at short
    have run := @Emits.scan_runs _ _ _ kernel_emits fmt 0 _ _ [] given (by omega) closed
    unfold Kernel.vprintk at kernel
    rw [run] at kernel
    refine ⟨closed, short, clean_of_shown ?_⟩
    injection kernel with same
    exact congrArg Prod.snd same
  · rintro ⟨closed, short, clean⟩ out
    have run := @Emits.scan_runs _ _ _ kernel_emits fmt 0 _ _ out given (by omega) closed
    have run' := @Emits.scan_runs _ _ _ user_emits fmt 0 _ _ out given (by omega) closed
    rw [shown_all clean] at run
    exact ⟨run, run'⟩

/-- The text `<%s>%c`, with `NULL` and a new line. -/
theorem print_null : Print [⟨60#8, by decide⟩, ⟨37#8, by decide⟩, ⟨115#8, by decide⟩, ⟨62#8, by decide⟩, ⟨37#8, by decide⟩, ⟨99#8, by decide⟩]
    [.str none, .word 10#32] ([60#8] ++ nullText ++ [62#8, 10#8]) :=
  (print_iff rfl).2 (by decide)

/-- The text `9%`, as one would write a share: neither function stops at its NUL. -/
theorem percent_runs_on : ∃ fmt r, rendered fmt [] = some r ∧ ¬ Print fmt [] r ∧
    ∀ out, Kernel.vprintk fmt [] out = .error .undefined ∧ Usr.printf fmt [] out = .error .undefined := by
  refine ⟨[⟨57#8, by decide⟩, ⟨37#8, by decide⟩], [57#8, 37#8], rfl, ?_, fun out => ⟨rfl, rfl⟩⟩
  intro print
  cases (print []).1

end Directives

end Aarch64Os
