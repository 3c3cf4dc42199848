import Aarch64Os.Base.Ends
import Aarch64Os.Base.Tokens
import Aarch64Os.Kernel.Fs
import Aarch64Os.Kernel.Strings

/-!
# The shell's parser (`usr/sh.c`, `usr/ulib.c`)

`parse` cuts the line where it stands: `strtok` puts a NUL on every white space, and the arguments point into
the line. A pointer is an index of the line.
-/

namespace Aarch64Os.Usr
set_option autoImplicit false
open Base Kernel

/-- `char buf[128]`. -/
abbrev CmdBuf : Type := Fin 128 → BitVec 8

/-- What `parse` works on: the line, the `save` of `strtok`, which points to an empty string at first, and
`char *argv[8]`, with nothing for `NULL`. -/
structure Shell where
  buf : CmdBuf
  save : Option Nat
  argv : Fin 8 → Option Nat

local instance argvSlots : NeZero 8 := ⟨by decide⟩

abbrev ShellM := StateT Shell (Except Fault)

/-- `*p`. -/
def loadChar (p : Nat) : ShellM (BitVec 8) := do
  let s ← get
  if h : p < 128 then pure (s.buf ⟨p, h⟩) else throw .undefined

/-- `*p = c`. -/
def storeChar (p : Nat) (c : BitVec 8) : ShellM Unit := do
  let s ← get
  if h : p < 128 then set { s with buf := Function.update s.buf ⟨p, h⟩ c } else throw .undefined

/-- `argv[i] = p`. -/
def setArg (i : Nat) (p : Option Nat) : ShellM Unit := do
  let s ← get
  if h : i < 8 then set { s with argv := Function.update s.argv ⟨i, h⟩ p } else throw .undefined

/-- `strchr`, for the characters of a string. -/
def strchr : List (BitVec 8) → BitVec 8 → Option (List (BitVec 8))
  | [], _ => none
  | d :: s, c => if d = c then some (d :: s) else strchr s c

/-- `ws`. -/
def ws : List (BitVec 8) := [32#8, 10#8, 9#8]

/-- The loop of `strtok`; there are no more rounds than characters. -/
def strtokLoop (s2 : List (BitVec 8)) (s : Nat) : Nat → Nat → ShellM (Option Nat)
  | 0, _ => throw .hang
  | left + 1, s1 => do
    let c ← loadChar s1
    if c = 0 then pure none
    else if (strchr s2 c).isSome then do
      storeChar s1 0
      modify fun t => { t with save := some (s1 + 1) }
      pure (some s)
    else strtokLoop s2 s left (s1 + 1)

/-- `strtok`. -/
def strtok (s1 : Option Nat) (s2 : List (BitVec 8)) : ShellM (Option Nat) := do
  if s1.isSome then modify fun t => { t with save := s1 }
  let t ← get
  match t.save with
  | none => pure none
  | some s1 => strtokLoop s2 s1 129 s1

/-- The first loop of `parse`. -/
def skipWs : Nat → Nat → ShellM Nat
  | 0, _ => throw .hang
  | left + 1, cmd => do
    let c ← loadChar cmd
    if (strchr ws c).isSome then skipWs left (cmd + 1) else pure cmd

/-- The second loop of `parse`. -/
def argLoop : Nat → Nat → ShellM Nat
  | 0, _ => throw .hang
  | left + 1, argc => do
    let tok ← strtok none ws
    match tok with
    | none => pure argc
    | some tok => do
      setArg argc (some tok)
      argLoop left (argc + 1)

/-- `parse`. -/
def parse (cmd : Nat) : ShellM Int := do
  let cmd ← skipWs 129 cmd
  let tok ← strtok (some cmd) ws
  setArg 0 tok
  let argc ← argLoop 129 1
  setArg argc none
  let s ← get
  if s.argv 0 = none then pure (-1) else pure argc

/-- What `read_cmd` leaves in the buffer. -/
def lineBuf (text : List Chr) : CmdBuf := fun i => if h : i.val < text.length then text[i.val].val else 0

/-- White space. -/
def isWs (c : Chr) : Bool := c.val ∈ ws

/-- The string at an index of the line. -/
def strAt (buf : CmdBuf) (p : Nat) : List (BitVec 8) := ((List.ofFn buf).drop p).takeWhile (· ≠ 0)

/-- `argv[i]`. -/
def Shell.arg (s : Shell) (i : Nat) : Option Nat := if h : i < 8 then s.argv ⟨i, h⟩ else none

/-- What is asked of `parse` for a line with these words: no words, or more than fit with the null pointer,
are refused; else they are the arguments. -/
def ParsesTo (found : List (List Chr)) (argc : Int) (t : Shell) : Prop :=
  if found = [] ∨ 8 ≤ found.length then argc = -1
  else argc = found.length ∧ (∀ i (h : i < found.length), ∃ p, t.arg i = some p ∧ strAt t.buf p = bytesOf found[i]) ∧
    t.arg found.length = none

/-- Some text and a NUL behind it are in the line, from an index on. -/
def Shows (buf : CmdBuf) : Nat → List Chr → Prop
  | p, [] => p < 128 ∧ byte buf p = 0
  | p, c :: text => p < 128 ∧ byte buf p = c.val ∧ Shows buf (p + 1) text

section Line
variable {buf : CmdBuf} {p q : Nat} {text w rest : List Chr} {c d : Chr} {s t : Shell}

theorem strchr_isSome (s : List (BitVec 8)) (c : BitVec 8) : (strchr s c).isSome = true ↔ c ∈ s := by
  induction s with
  | nil => simp [strchr]
  | cons d s ih =>
    rw [strchr, List.mem_cons]
    by_cases same : d = c
    · simp [same]
    · rw [if_neg same, ih]
      simp [Ne.symm same]

theorem strchr_ws (c : Chr) : (strchr ws c.val).isSome = true ↔ isWs c = true := by
  rw [strchr_isSome, isWs, decide_eq_true_iff]

theorem loadChar_runs (lt : p < 128) : loadChar p s = .ok (byte s.buf p, s) := by
  rw [loadChar, bind_runs (get_runs s), dif_pos lt, byte, dif_pos lt]
  rfl

theorem storeChar_runs (lt : p < 128) (c : BitVec 8) :
    storeChar p c s = .ok ((), { s with buf := Function.update s.buf ⟨p, lt⟩ c }) := by
  rw [storeChar, bind_runs (get_runs s), dif_pos lt]
  rfl

theorem setArg_runs {i : Nat} (lt : i < 8) (p : Option Nat) :
    setArg i p s = .ok ((), { s with argv := Function.update s.argv ⟨i, lt⟩ p }) := by
  rw [setArg, bind_runs (get_runs s), dif_pos lt]
  rfl

theorem setArg_fails {i : Nat} (le : 8 ≤ i) (p : Option Nat) : setArg i p s = .error .undefined := by
  rw [setArg, bind_runs (get_runs s), dif_neg (Nat.not_lt.2 le)]
  rfl

theorem byte_update (lt : p < 128) (c : BitVec 8) (i : Nat) :
    byte (Function.update buf ⟨p, lt⟩ c) i = if i = p then c else byte buf i := by
  unfold byte
  by_cases inside : i < 128
  · rw [dif_pos inside, dif_pos inside, Function.update_apply]
    simp only [Fin.mk.injEq]
  · rw [dif_neg inside, dif_neg inside, if_neg (by omega)]

theorem Shows.congr {buf' : CmdBuf} (text : List Chr) : ∀ {p : Nat}, (∀ i, p ≤ i → i ≤ p + text.length → byte buf' i = byte buf i) →
    Shows buf p text → Shows buf' p text := by
  induction text with
  | nil =>
    intro p same shows
    exact ⟨shows.1, (same p le_rfl le_rfl).trans shows.2⟩
  | cons c text ih =>
    intro p same shows
    rw [List.length_cons] at same
    refine ⟨shows.1, (same p le_rfl (by omega)).trans shows.2.1, ih (fun i le le' => same i (by omega) (by omega)) shows.2.2⟩

/-- A NUL in it ends the text there. -/
theorem Shows.cut (w : List Chr) : ∀ {p : Nat}, Shows buf p (w ++ d :: rest) →
    ∃ lt : p + w.length < 128, Shows (Function.update buf ⟨p + w.length, lt⟩ 0) p w ∧ Shows buf (p + w.length + 1) rest := by
  induction w with
  | nil =>
    intro p shows
    refine ⟨shows.1, ⟨shows.1, ?_⟩, shows.2.2⟩
    rw [byte_update, if_pos (by simp)]
  | cons c w ih =>
    intro p shows
    obtain ⟨lt, front, back⟩ := ih shows.2.2
    have index : p + (c :: w).length = p + 1 + w.length := by
      rw [List.length_cons]
      omega
    simp only [index]
    refine ⟨lt, ⟨shows.1, ?_, front⟩, back⟩
    rw [byte_update, if_neg (by omega)]
    exact shows.2.1

theorem Shows.drop (w : List Chr) : ∀ {p : Nat}, Shows buf p (w ++ rest) → Shows buf (p + w.length) rest := by
  induction w with
  | nil => exact fun shows => shows
  | cons c w ih =>
    intro p shows
    have index : p + (c :: w).length = p + 1 + w.length := by
      rw [List.length_cons]
      omega
    rw [index]
    exact ih shows.2.2

theorem drop_ofFn (lt : p < 128) : (List.ofFn buf).drop p = byte buf p :: (List.ofFn buf).drop (p + 1) := by
  rw [List.drop_eq_getElem_cons (by rwa [List.length_ofFn]), List.getElem_ofFn, byte, dif_pos lt]

theorem Shows.str (text : List Chr) : ∀ {p : Nat}, Shows buf p text → strAt buf p = bytesOf text := by
  induction text with
  | nil =>
    intro p shows
    rw [strAt, drop_ofFn shows.1, shows.2, List.takeWhile_cons_of_neg (by decide)]
    rfl
  | cons c text ih =>
    intro p shows
    rw [strAt, drop_ofFn shows.1, shows.2.1, List.takeWhile_cons_of_pos (by simpa using c.property)]
    exact congrArg (c.val :: ·) (ih shows.2.2)

theorem Shows.short (text : List Chr) : ∀ {p : Nat}, Shows buf p text → p + text.length < 128 := by
  induction text with
  | nil => exact fun shows => shows.1
  | cons c text ih =>
    intro p shows
    have short := ih shows.2.2
    rw [List.length_cons]
    omega

/-- The line as it was read. -/
theorem shows_line (text : List Chr) : ∀ {front : List Chr}, (front ++ text).length ≤ 127 → Shows (lineBuf (front ++ text)) front.length text := by
  induction text with
  | nil =>
    intro front short
    have lt : front.length < 128 := by
      simp only [List.append_nil] at short
      omega
    refine ⟨lt, ?_⟩
    simp [byte, lineBuf, lt]
  | cons c text ih =>
    intro front short
    have lt : front.length < 128 := by
      simp only [List.length_append, List.length_cons] at short
      omega
    have rest := @ih (front ++ [c]) (by simpa using short)
    simp only [List.append_assoc, List.singleton_append, List.length_append, List.length_singleton] at rest
    refine ⟨lt, ?_, rest⟩
    simp [byte, lineBuf, lt]

theorem skipWs_runs (text : List Chr) : ∀ {left p : Nat}, Shows s.buf p text → text.length < left →
    skipWs left p s = .ok (p + (text.takeWhile isWs).length, s) := by
  induction text with
  | nil =>
    intro left p shows short
    obtain ⟨left, rfl⟩ := Nat.exists_eq_succ_of_ne_zero (Nat.ne_zero_of_lt short)
    have none : ¬ (strchr ws 0).isSome = true := by decide
    rw [skipWs, bind_runs (loadChar_runs shows.1), shows.2, if_neg none]
    rfl
  | cons c text ih =>
    intro left p shows short
    obtain ⟨left, rfl⟩ := Nat.exists_eq_succ_of_ne_zero (Nat.ne_zero_of_lt short)
    rw [List.length_cons] at short
    rw [skipWs, bind_runs (loadChar_runs shows.1), shows.2.1]
    by_cases sep : isWs c = true
    · rw [if_pos ((strchr_ws c).2 sep), ih shows.2.2 (by omega), List.takeWhile_cons_of_pos sep, List.length_cons,
        show p + 1 + (text.takeWhile isWs).length = p + ((text.takeWhile isWs).length + 1) by omega]
    · rw [if_neg (fun there => sep ((strchr_ws c).1 there)), List.takeWhile_cons_of_neg sep]
      rfl

/-- `strtok` in front of white space: it makes way for a NUL. -/
theorem strtokLoop_cut (w : List Chr) : ∀ {left p : Nat}, Shows s.buf p (w ++ d :: rest) → (∀ c ∈ w, isWs c = false) → isWs d = true →
    w.length < left → ∃ lt : p + w.length < 128, strtokLoop ws q left p s =
      .ok (some q, { s with buf := Function.update s.buf ⟨p + w.length, lt⟩ 0, save := some (p + w.length + 1) }) := by
  induction w with
  | nil =>
    intro left p shows free sep short
    obtain ⟨left, rfl⟩ := Nat.exists_eq_succ_of_ne_zero (Nat.ne_zero_of_lt short)
    have lt : p < 128 := shows.1
    have here : byte s.buf p = d.val := shows.2.1
    refine ⟨lt, ?_⟩
    rw [strtokLoop, bind_runs (loadChar_runs lt), here, if_neg d.property, if_pos ((strchr_ws d).2 sep),
      bind_runs (storeChar_runs lt 0), bind_runs (modify_runs _ _)]
    rfl
  | cons c w ih =>
    intro left p shows free sep short
    obtain ⟨left, rfl⟩ := Nat.exists_eq_succ_of_ne_zero (Nat.ne_zero_of_lt short)
    rw [List.length_cons] at short
    have other : isWs c = false := free c List.mem_cons_self
    obtain ⟨lt, run⟩ := @ih left (p + 1) shows.2.2 (fun e mem => free e (List.mem_cons_of_mem _ mem)) sep (by omega)
    have index : p + (c :: w).length = p + 1 + w.length := by
      rw [List.length_cons]
      omega
    simp only [index]
    refine ⟨lt, ?_⟩
    rw [strtokLoop, bind_runs (loadChar_runs shows.1), shows.2.1, if_neg c.property,
      if_neg (fun there => Bool.eq_false_iff.1 other ((strchr_ws c).1 there)), run]

/-- `strtok` on a last word without white space behind it: nothing. -/
theorem strtokLoop_run (w : List Chr) : ∀ {left p : Nat}, Shows s.buf p w → (∀ c ∈ w, isWs c = false) → w.length < left →
    strtokLoop ws q left p s = .ok (none, s) := by
  induction w with
  | nil =>
    intro left p shows free short
    obtain ⟨left, rfl⟩ := Nat.exists_eq_succ_of_ne_zero (Nat.ne_zero_of_lt short)
    rw [strtokLoop, bind_runs (loadChar_runs shows.1), shows.2, if_pos rfl]
    rfl
  | cons c w ih =>
    intro left p shows free short
    obtain ⟨left, rfl⟩ := Nat.exists_eq_succ_of_ne_zero (Nat.ne_zero_of_lt short)
    rw [List.length_cons] at short
    have other : isWs c = false := free c List.mem_cons_self
    rw [strtokLoop, bind_runs (loadChar_runs shows.1), shows.2.1, if_neg c.property,
      if_neg (fun there => Bool.eq_false_iff.1 other ((strchr_ws c).1 there)),
      ih shows.2.2 (fun e mem => free e (List.mem_cons_of_mem _ mem)) (by omega)]

theorem strtok_some (p : Nat) : strtok (some p) ws s = strtok none ws { s with save := some p } := rfl

theorem strtok_none (saved : s.save = some p) : strtok none ws s = strtokLoop ws p 129 p s := by
  have go : strtok none ws s = (match s.save with
      | none => pure none
      | some s1 => strtokLoop ws s1 129 s1 : ShellM (Option Nat)) s := rfl
  rw [go, saved]

/-- What the second loop has done: nothing to the arguments it had and to the line in front of it, and the
tokens are the arguments behind those. -/
structure Collected (s t : Shell) (argc p : Nat) (found : List (List Chr)) : Prop where
  before : ∀ i < argc, t.arg i = s.arg i
  front : ∀ i < p, byte t.buf i = byte s.buf i
  here : ∀ i (h : i < found.length), ∃ q, t.arg (argc + i) = some q ∧ Shows t.buf q found[i]

theorem arg_update {i j : Nat} (lt : i < 8) (a : Option Nat) :
    Shell.arg { s with argv := Function.update s.argv ⟨i, lt⟩ a } j = if j = i then a else s.arg j := by
  unfold Shell.arg
  by_cases inside : j < 8
  · rw [dif_pos inside, dif_pos inside]
    simp only [Function.update_apply, Fin.mk.injEq]
  · rw [dif_neg inside, dif_neg inside, if_neg (by omega)]

/-- **The second loop** makes an argument of each token, as long as there is a place for it. -/
theorem argLoop_runs (text : List Chr) : ∀ {left argc p : Nat} {s : Shell}, s.save = some p → Shows s.buf p text → text.length < left →
    argc ≤ 8 → if argc + (tokens isWs text).length ≤ 8
      then ∃ t, argLoop left argc s = .ok (argc + (tokens isWs text).length, t) ∧ Collected s t argc p (tokens isWs text)
      else argLoop left argc s = .error .undefined := by
  induction size : text.length using Nat.strongRecOn generalizing text with
  | ind n ih =>
    subst size
    intro left argc p s saved shows short room
    obtain ⟨left, rfl⟩ := Nat.exists_eq_succ_of_ne_zero (Nat.ne_zero_of_lt short)
    have total := shows.short
    rcases run_cases isWs text with free | ⟨w, d, rest, rfl, free, sep⟩
    · rw [tokens_run free, List.length_nil, Nat.add_zero, if_pos room, argLoop,
        bind_runs ((strtok_none saved).trans (strtokLoop_run text shows free (by omega)))]
      exact ⟨s, rfl, fun _ _ => rfl, fun _ _ => rfl, fun i h => absurd h (Nat.not_lt_zero i)⟩
    · rw [List.length_append, List.length_cons] at total short
      obtain ⟨lt, cut⟩ := strtokLoop_cut (q := p) w shows free sep (show w.length < 129 by omega)
      obtain ⟨lt', front, back⟩ := Shows.cut w shows
      rw [tokens_cut free sep, List.length_cons, argLoop, bind_runs ((strtok_none saved).trans cut)]
      dsimp only
      by_cases full : argc = 8
      · rw [if_neg (by omega)]
        exact fail_bind.2 (.inl (setArg_fails (by omega) _))
      have next : argc < 8 := by omega
      rw [bind_runs (setArg_runs next (some p)), Nat.add_comm (tokens isWs rest).length 1, ← Nat.add_assoc]
      have behind : Shows (Function.update s.buf ⟨p + w.length, lt⟩ 0) (p + w.length + 1) rest := by
        refine Shows.congr rest ?_ back
        intro i le _
        rw [byte_update, if_neg (by omega)]
      have run := @ih rest.length (by rw [List.length_append, List.length_cons]; omega) rest rfl left (argc + 1) (p + w.length + 1)
        { buf := Function.update s.buf ⟨p + w.length, lt⟩ 0, save := some (p + w.length + 1), argv := Function.update s.argv ⟨argc, next⟩ (some p) }
        rfl behind (by omega) (by omega)
      split at run
      · rename_i fits
        obtain ⟨t, run, collected⟩ := run
        rw [if_pos fits]
        refine ⟨t, run, ?_, ?_, ?_⟩
        · intro i lt'
          refine (collected.before i (by omega)).trans ?_
          exact (arg_update next _).trans (if_neg (by omega))
        · intro i lt'
          rw [collected.front i (by omega), byte_update, if_neg (by omega)]
        · intro i h
          cases i with
          | zero =>
            refine ⟨p, ?_, ?_⟩
            · refine (collected.before argc (by omega)).trans ?_
              exact (arg_update next _).trans (if_pos rfl)
            · exact Shows.congr w (fun i _ le => collected.front i (by omega)) front
          | succ i =>
            obtain ⟨q, at_q, shows'⟩ := collected.here i (by simpa using h)
            rw [show argc + (i + 1) = argc + 1 + i by omega]
            exact ⟨q, at_q, shows'⟩
      · rename_i full
        rw [if_neg full]
        exact run

/-- Without white space behind a first word, no argument is found. -/
theorem parse_none (skip : skipWs 129 0 s = .ok (p, s)) (shows : Shows s.buf p text) (free : ∀ c ∈ text, isWs c = false) :
    ∃ t, parse 0 s = .ok (-1, t) := by
  have short := shows.short
  have nothing : strtok none ws { s with save := some p } = .ok (none, { s with save := some p }) :=
    (strtok_none rfl).trans (strtokLoop_run text shows free (by omega))
  have first : strtok (some p) ws s = .ok (none, { s with save := some p }) := nothing
  rw [parse, bind_runs skip, bind_runs first, bind_runs (setArg_runs (by decide) none)]
  have again := (strtok_none (s := { s with save := some p, argv := Function.update s.argv ⟨0, by decide⟩ none }) rfl).trans
    (strtokLoop_run text shows free (by omega))
  have loop : argLoop 129 1 { s with save := some p, argv := Function.update s.argv ⟨0, by decide⟩ none } =
      .ok (1, { s with save := some p, argv := Function.update s.argv ⟨0, by decide⟩ none }) := by
    rw [argLoop, bind_runs again]
    rfl
  rw [bind_runs loop, bind_runs (setArg_runs (by decide) none), bind_runs (get_runs _), if_pos (by rfl)]
  exact ⟨_, rfl⟩

/-- With one, the first argument is found as the others are. -/
theorem parse_some (skip : skipWs 129 0 s = .ok (p, s)) (shows : Shows s.buf p (w ++ d :: rest)) (free : ∀ c ∈ w, isWs c = false)
    (sep : isWs d = true) : ∃ u, argLoop 130 0 { s with save := some p } = argLoop 129 1 u ∧
      parse 0 s = (argLoop 129 1 >>= fun argc => do
        setArg argc none
        let s ← get
        if s.argv 0 = none then pure (-1 : Int) else pure (argc : Int)) u := by
  have short := shows.short
  rw [List.length_append] at short
  obtain ⟨lt, cut⟩ := strtokLoop_cut (s := { s with save := some p }) (q := p) w shows free sep (show w.length < 129 by omega)
  obtain ⟨v, token⟩ : ∃ v, strtok none ws { s with save := some p } = .ok (some p, v) := ⟨_, (strtok_none rfl).trans cut⟩
  refine ⟨{ v with argv := Function.update v.argv ⟨0, by decide⟩ (some p) }, ?_, ?_⟩
  · rw [argLoop, bind_runs token]
    dsimp only
    rw [bind_runs (setArg_runs (by decide) (some p))]
  · rw [parse, bind_runs skip, bind_runs ((strtok_some p).trans token), bind_runs (setArg_runs (by decide) (some p))]

theorem bytesOf_injective {v w : List Chr} (same : bytesOf v = bytesOf w) : v = w :=
  List.map_injective_iff.2 Subtype.val_injective same

/-- What `parse` returns for a line with a token: as many arguments as there are tokens, which are those, if there is
a place for the null pointer. -/
theorem parse_tokens (skip : skipWs 129 0 s = .ok (p, s)) (shows : Shows s.buf p text) (some : tokens isWs text ≠ []) :
    if (tokens isWs text).length < 8
      then ∃ t, parse 0 s = .ok (((tokens isWs text).length : Int), t) ∧ t.arg (tokens isWs text).length = none ∧
        ∀ i (h : i < (tokens isWs text).length), ∃ q, t.arg i = Option.some q ∧ strAt t.buf q = bytesOf (tokens isWs text)[i]
      else parse 0 s = .error .undefined := by
  have short := shows.short
  rcases run_cases isWs text with free | ⟨w, d, rest, rfl, free, sep⟩
  · exact absurd (tokens_run free) some
  obtain ⟨u, loop, run⟩ := parse_some skip shows free sep
  have collects := argLoop_runs (w ++ d :: rest) (s := { s with save := Option.some p }) rfl shows (show _ < 130 by omega) (Nat.zero_le 8)
  rw [loop, Nat.zero_add] at collects
  have pos : 0 < (tokens isWs (w ++ d :: rest)).length := List.length_pos_of_ne_nil some
  generalize tokens isWs (w ++ d :: rest) = found at collects pos
  by_cases fits : found.length ≤ 8
  · rw [if_pos fits] at collects
    obtain ⟨t, ends, collected⟩ := collects
    rw [run, bind_runs ends]
    by_cases last : found.length < 8
    · rw [if_pos last, bind_runs (setArg_runs last none), bind_runs (get_runs _)]
      obtain ⟨q, first, -⟩ := collected.here 0 pos
      have arg : ∀ i, Shell.arg { t with argv := Function.update t.argv ⟨found.length, last⟩ none } i = if i = found.length then none else t.arg i :=
        fun i => arg_update last none
      have there : ¬ Function.update t.argv ⟨found.length, last⟩ none 0 = none := by
        have set : t.argv 0 = Option.some q := by simpa [Shell.arg] using first
        have other : (0 : Fin 8) ≠ ⟨found.length, last⟩ := fun same => Nat.ne_of_lt pos (Fin.ext_iff.1 same)
        rw [Function.update_of_ne other, set]
        exact Option.some_ne_none q
      rw [if_neg there]
      refine ⟨_, rfl, (arg _).trans (if_pos rfl), fun i h => ?_⟩
      obtain ⟨q, at_q, text⟩ := collected.here i h
      rw [Nat.zero_add] at at_q
      exact ⟨q, ((arg i).trans (if_neg (by omega))).trans at_q, text.str⟩
    · rw [if_neg last]
      exact fail_bind.2 (.inl (setArg_fails (by omega) none))
  · rw [if_neg fits] at collects
    rw [if_neg (by omega), run]
    exact fail_bind.2 (.inl collects)

/-- A line that is refused is one without words, if the code does what is asked. -/
theorem ParsesTo.of_refused {found : List (List Chr)} {t : Shell} (parses : ParsesTo found (-1) t) : found = [] ∨ 8 ≤ found.length := by
  unfold ParsesTo at parses
  by_cases refused : found = [] ∨ 8 ≤ found.length
  · exact refused
  · rw [if_neg refused] at parses
    omega

/-- Strings at the arguments that are the words are the tokens. -/
theorem parsesTo_iff {found toks : List (List Chr)} {t : Shell} (some : toks ≠ []) (last : t.arg toks.length = none)
    (args : ∀ i (h : i < toks.length), ∃ q, t.arg i = Option.some q ∧ strAt t.buf q = bytesOf toks[i]) (few : toks.length < 8) :
    ParsesTo found (toks.length : Int) t ↔ toks = found := by
  constructor
  · intro parses
    unfold ParsesTo at parses
    by_cases refused : found = [] ∨ 8 ≤ found.length
    · rw [if_pos refused] at parses
      omega
    · rw [if_neg refused] at parses
      obtain ⟨count, strs, -⟩ := parses
      apply List.ext_getElem (by omega)
      intro i h h'
      obtain ⟨q, at_q, str⟩ := args i h
      obtain ⟨q', at_q', str'⟩ := strs i h'
      rw [at_q] at at_q'
      cases at_q'
      exact bytesOf_injective (str.symm.trans str')
  · intro same
    subst same
    unfold ParsesTo
    rw [if_neg (by rintro (none | many); exacts [some none, by omega])]
    exact ⟨rfl, args, last⟩

/-- **`parse`** gives the words of the line as arguments, or refuses it, just where there are less than 8 words, each
followed by exactly one white space. -/
theorem parse_iff {line : List Chr} (short : line.length ≤ 127) (save : Option Nat) (argv : Fin 8 → Option Nat) :
    (∃ argc t, parse 0 { buf := lineBuf line, save := save, argv := argv } = .ok (argc, t) ∧ ParsesTo (fields isWs line) argc t) ↔
      (fields isWs line).length < 8 ∧ Separated isWs (line.dropWhile isWs) := by
  have whole : Shows (lineBuf line) 0 line := @shows_line line [] short
  have skip := skipWs_runs (s := { buf := lineBuf line, save := save, argv := argv }) line whole (show _ < 129 by omega)
  have shows : Shows (lineBuf line) (0 + (line.takeWhile isWs).length) (line.dropWhile isWs) :=
    Shows.drop (line.takeWhile isWs) (by rwa [List.takeWhile_append_dropWhile])
  rw [← fields_skip line, ← tokens_eq_fields_iff]
  generalize line.dropWhile isWs = text at shows
  by_cases none : tokens isWs text = []
  · obtain ⟨t, run⟩ : ∃ t, parse 0 { buf := lineBuf line, save := save, argv := argv } = .ok (-1, t) := by
      rcases run_cases isWs text with free | ⟨w, d, rest, rfl, free, sep⟩
      · exact parse_none skip shows free
      · rw [tokens_cut free sep] at none
        cases none
    have le := length_fields_le (p := isWs) text
    rw [none, List.length_nil] at le
    constructor
    · rintro ⟨argc, t', run', parses⟩
      rw [run] at run'
      cases run'
      have empty : fields isWs text = [] := parses.of_refused.resolve_right (by omega)
      rw [none, empty]
      decide
    · rintro ⟨-, same⟩
      refine ⟨-1, t, run, ?_⟩
      unfold ParsesTo
      rw [if_pos (.inl (same.symm.trans none))]
  · have runs := parse_tokens skip shows none
    split at runs
    · rename_i few
      obtain ⟨t, run, last, args⟩ := runs
      have right := fun found : List (List Chr) => @parsesTo_iff found _ t none last args few
      constructor
      · rintro ⟨argc, t', run', parses⟩
        rw [run] at run'
        cases run'
        have same := (right _).1 parses
        exact ⟨same ▸ few, same⟩
      · rintro ⟨-, same⟩
        exact ⟨_, t, run, (right _).2 same⟩
    · rename_i many
      constructor
      · rintro ⟨argc, t', run', -⟩
        rw [runs] at run'
        cases run'
      · rintro ⟨few, same⟩
        exact absurd (same ▸ few) many

end Line

/-- `ls -l`, with the new line. -/
def lsLine : List Chr :=
  [⟨108#8, by decide⟩, ⟨115#8, by decide⟩, ⟨32#8, by decide⟩, ⟨45#8, by decide⟩, ⟨108#8, by decide⟩, ⟨10#8, by decide⟩]

theorem parse_ls : ∃ argc t, parse 0 { buf := lineBuf lsLine, save := none, argv := fun _ => none } = .ok (argc, t) ∧
    ParsesTo (fields isWs lsLine) argc t :=
  (parse_iff (by decide) none _).2 ⟨by decide, (tokens_eq_fields_iff _).1 (by decide)⟩

/-- `ls` without a new line has a word, and is refused as if it had none. -/
theorem parse_no_newline : ∃ (line : List Chr) (t : Shell), line.length ≤ 127 ∧ (fields isWs line).length = 1 ∧
    parse 0 { buf := lineBuf line, save := none, argv := fun _ => none } = .ok (-1, t) ∧ ¬ ParsesTo (fields isWs line) (-1) t := by
  have whole : Shows (lineBuf (lsLine.take 2)) 0 (lsLine.take 2) := @shows_line (lsLine.take 2) [] (by decide)
  have skip := skipWs_runs (s := { buf := lineBuf (lsLine.take 2), save := none, argv := fun _ => none }) _ whole (show 2 < 129 by decide)
  have front : 0 + ((lsLine.take 2).takeWhile isWs).length = 0 := by decide
  rw [front] at skip
  have free : ∀ c ∈ lsLine.take 2, isWs c = false := by simp [lsLine, isWs, ws]
  obtain ⟨t, run⟩ := parse_none skip whole free
  refine ⟨lsLine.take 2, t, by decide, by decide, run, fun parses => ?_⟩
  exact absurd parses.of_refused (by decide)

end Aarch64Os.Usr
