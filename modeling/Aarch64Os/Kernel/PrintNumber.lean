import Aarch64Os.Base.Numeral
import Aarch64Os.Base.Returns
import Aarch64Os.Kernel.Fs

/-!
# Printing numbers (`kernel/printk.c`, `usr/ulib.c`)

The digits of a number are stored backwards from the end of a buffer that has a byte for every bit and one for
the NUL. The functions of the kernel and those of the user library differ in where the string goes. What goes
out is a list of bytes here.
-/

namespace Aarch64Os
set_option autoImplicit false
open Base

/-- A function that writes, with what has gone out. -/
abbrev OutM := StateT (List (BitVec 8)) (Except Kernel.Fault)

namespace Kernel

/-- `uart_putc`. -/
def uartPutc (c : BitVec 8) : OutM Unit := modify (· ++ [c])

/-- `BACKSPACE`. -/
def BACKSPACE : BitVec 8 := 127#8

/-- `csputc`. -/
def csputc (c : BitVec 8) : OutM Unit := do
  if c = BACKSPACE then
    uartPutc 8#8
    uartPutc 32#8
    uartPutc 8#8
  else uartPutc c

end Kernel

/-- `write(1, s, size)`, where 1 is the console: `cswrite`. -/
def Usr.write (s : List (BitVec 8)) : OutM Unit := s.forM Kernel.uartPutc

/-- `"0123456789abcdef"`, with its NUL. -/
def hexDigits : List (BitVec 8) :=
  [48#8, 49#8, 50#8, 51#8, 52#8, 53#8, 54#8, 55#8, 56#8, 57#8, 97#8, 98#8, 99#8, 100#8, 101#8, 102#8, 0#8]

/-- `'-'`. -/
def MINUS : BitVec 8 := 45#8

/-- `buf` and `cur`. -/
structure NumBuf where
  buf : Nat → BitVec 8
  cur : Nat

/-- `*--cur = c`. -/
def NumBuf.push (s : NumBuf) (c : BitVec 8) : Except Kernel.Fault NumBuf :=
  if s.cur = 0 then .error .undefined else .ok { buf := Function.update s.buf (s.cur - 1) c, cur := s.cur - 1 }

/-- The `do` loop; it makes a digit in each round, so there are no more rounds than bits. -/
def digitLoop {w : Nat} (base : BitVec w) : Nat → BitVec w → NumBuf → Except Kernel.Fault NumBuf
  | 0, _, _ => .error .hang
  | left + 1, unum, s => do
    let c ← match hexDigits[(unum % base).toNat]? with
      | some c => pure c
      | none => throw .undefined
    let s ← s.push c
    let unum := unum / base
    if unum ≠ 0 then digitLoop base left unum s else pure s

/-- Signed arithmetic of `w` bits, which does not overflow. -/
def signed (w : Nat) (x : Int) : Except Kernel.Fault (BitVec w) :=
  if -2 ^ (w - 1) ≤ x ∧ x < 2 ^ (w - 1) then .ok (BitVec.ofInt w x) else .error .undefined

/-- The string at `cur`, in a buffer with `left` bytes from there on. -/
def readString (buf : Nat → BitVec 8) : Nat → Nat → Except Kernel.Fault (List (BitVec 8))
  | 0, _ => .error .undefined
  | left + 1, cur => if buf cur = 0 then .ok [] else (readString buf left (cur + 1)).map (buf cur :: ·)

/-- What the four functions have in common, for a number of `w` bits: the string that is left at `cur`. -/
def numberString (w : Nat) (num : BitVec w) (base : BitVec 32) (sign : Bool) : Except Kernel.Fault (List (BitVec 8)) := do
  let neg := sign && decide (num.toInt < 0)
  let unum ← if neg then do
      let num ← signed w (num.toInt + 1)
      let num ← signed w (-num.toInt)
      pure (num + 1)
    else pure num
  let s ← digitLoop (base.signExtend w) (w + 1) unum { buf := fun _ => 0, cur := w }
  let s ← if neg then s.push MINUS else pure s
  readString s.buf (w + 1 - s.cur) s.cur

/-- `printiu32`. -/
def Kernel.printiu32 (num : BitVec 32) (base : BitVec 32) (sign : Bool) : OutM Unit := do
  let s ← liftM (numberString 32 num base sign)
  s.forM csputc

/-- `printiu64`. -/
def Kernel.printiu64 (num : BitVec 64) (base : BitVec 32) (sign : Bool) : OutM Unit := do
  let s ← liftM (numberString 64 num base sign)
  s.forM csputc

/-- `uprintiu32`. -/
def Usr.uprintiu32 (num : BitVec 32) (base : BitVec 32) (sign : Bool) : OutM Unit := do
  let s ← liftM (numberString 32 num base sign)
  Usr.write s

/-- `uprintiu64`. -/
def Usr.uprintiu64 (num : BitVec 64) (base : BitVec 32) (sign : Bool) : OutM Unit := do
  let s ← liftM (numberString 64 num base sign)
  Usr.write s

/-- What a digit stands for. -/
def digitValue (c : BitVec 8) : Option Nat :=
  if 48 ≤ c.toNat ∧ c.toNat ≤ 57 then some (c.toNat - 48) else if 97 ≤ c.toNat ∧ c.toNat ≤ 102 then some (c.toNat - 87) else none

/-- The number that digits of a base make up. -/
def readDigits (base : Nat) (s : List (BitVec 8)) : Option Nat :=
  s.foldlM (fun v c => do
    let d ← digitValue c
    if d < base then some (v * base + d) else none) 0

/-- The number that a string stands for: digits, at least one, and a minus before them if it is negative. -/
def readNumber (base : Nat) : List (BitVec 8) → Option Int
  | [] => none
  | c :: s =>
    if c = MINUS then if s = [] then none else (readDigits base s).map fun v : Nat => -(v : Int)
    else (readDigits base (c :: s)).map fun v : Nat => (v : Int)

/-- A string whose first digit is a zero has no others. -/
def NoLeadingZero (s : List (BitVec 8)) : Prop := s.head? = some 48#8 → s = [48#8]

instance (s : List (BitVec 8)) : Decidable (NoLeadingZero s) := inferInstanceAs (Decidable (_ → _))

/-- The string is that of the number `v`. -/
structure Writes (base : Nat) (s : List (BitVec 8)) (v : Int) : Prop where
  value : readNumber base s = some v
  canonical : NoLeadingZero s ∧ ∀ rest, s = MINUS :: rest → rest.head? ≠ some 48#8

section Buffer
variable {w : Nat} {s : NumBuf} {str : List (BitVec 8)} {c : BitVec 8}

/-- The character of a digit. -/
def digitChar (d : Nat) : BitVec 8 := hexDigits.getD d 0

theorem digitChar_value : ∀ d < 16, digitValue (digitChar d) = some d := by decide

theorem digitChar_printable : ∀ d < 16, digitChar d ≠ 0 ∧ digitChar d ≠ MINUS ∧ digitChar d ≠ Kernel.BACKSPACE ∧ (digitChar d = 48#8 → d = 0) := by
  decide

theorem hexDigits_get {d : Nat} (lt : d < 16) : hexDigits[d]? = some (digitChar d) := by
  have inside : d < hexDigits.length := lt.trans (by decide)
  rw [digitChar, List.getD_eq_getElem?_getD, List.getElem?_eq_getElem inside]
  rfl

/-- A buffer of `w + 1` bytes shows a string from `cur` to its last byte, which is NUL. -/
structure NumBuf.Shows (w : Nat) (s : NumBuf) (str : List (BitVec 8)) : Prop where
  place : s.cur + str.length = w
  bytes : ∀ k (lt : k < str.length), s.buf (s.cur + k) = str[k]
  last : s.buf w = 0

theorem NumBuf.Shows.push (h : s.Shows w str) (room : 0 < s.cur) (c : BitVec 8) : ∃ s', s.push c = .ok s' ∧ s'.Shows w (c :: str) := by
  refine ⟨{ buf := Function.update s.buf (s.cur - 1) c, cur := s.cur - 1 }, if_neg room.ne', ?_, ?_, ?_⟩
  · have place := h.place
    rw [List.length_cons]
    show s.cur - 1 + (str.length + 1) = w
    omega
  · intro k lt
    show Function.update s.buf (s.cur - 1) c (s.cur - 1 + k) = (c :: str)[k]
    cases k with
    | zero => exact Function.update_self ..
    | succ k =>
      rw [Function.update_of_ne (by omega), List.getElem_cons_succ, ← h.bytes k (by simpa using lt)]
      congr 1
      omega
  · have place := h.place
    show Function.update s.buf (s.cur - 1) c w = 0
    rw [Function.update_of_ne (by omega), h.last]

/-- What is shown is read. -/
theorem readString_shows (buf : Nat → BitVec 8) (str : List (BitVec 8)) : ∀ {cur left : Nat}, (∀ k (lt : k < str.length), buf (cur + k) = str[k]) →
    buf (cur + str.length) = 0 → str.length < left → (∀ c ∈ str, c ≠ 0) → readString buf left cur = .ok str := by
  induction str with
  | nil =>
    intro cur left bytes last room chars
    obtain ⟨left, rfl⟩ : ∃ n, left = n + 1 := ⟨left - 1, by omega⟩
    exact if_pos last
  | cons c str ih =>
    intro cur left bytes last room chars
    rw [List.length_cons] at last room
    obtain ⟨left, rfl⟩ : ∃ n, left = n + 1 := ⟨left - 1, by omega⟩
    have first : buf cur = c := bytes 0 (Nat.zero_lt_succ _)
    have rest : readString buf left (cur + 1) = .ok str := by
      apply ih
      · intro k lt
        rw [Nat.add_assoc, Nat.add_comm 1 k]
        exact bytes (k + 1) (Nat.succ_lt_succ lt)
      · rwa [Nat.add_assoc, Nat.add_comm 1]
      · omega
      · exact fun c mem => chars c (List.mem_cons_of_mem _ mem)
    rw [readString, first, if_neg (chars c List.mem_cons_self), rest]
    rfl

end Buffer

section Loop
variable {w b : Nat} {base : BitVec w}

/-- **The loop of digits.** It puts the numeral before what the buffer shows. -/
theorem digitLoop_shows (value : base.toNat = b) (more : 1 < b) (le : b ≤ 16) (left : Nat) : ∀ {unum : BitVec w} {s : NumBuf} {str : List (BitVec 8)},
    s.Shows w str → (numeral b unum.toNat).length ≤ s.cur → (numeral b unum.toNat).length ≤ left →
    ∃ s', digitLoop base left unum s = .ok s' ∧ s'.Shows w ((numeral b unum.toNat).map digitChar ++ str) := by
  induction left with
  | zero =>
    intro unum s str _ _ none
    exact absurd (List.length_eq_zero_iff.1 (Nat.le_zero.1 none)) (numeral_ne_nil b _)
  | succ left ih =>
    intro unum s str shows_ room fuel
    have rest : (unum % base).toNat = unum.toNat % b := by rw [BitVec.toNat_umod, value]
    have quotient : (unum / base).toNat = unum.toNat / b := by rw [BitVec.toNat_udiv, value]
    have low : unum.toNat % b < 16 := (Nat.mod_lt _ (by omega)).trans_le le
    have pos : 0 < s.cur := (List.length_pos_iff.2 (numeral_ne_nil b unum.toNat)).trans_le room
    obtain ⟨s', push, shows'⟩ := shows_.push pos (digitChar (unum.toNat % b))
    have step := numeral_step more unum.toNat
    have here : digitLoop base (left + 1) unum s = if unum / base ≠ 0 then digitLoop base left (unum / base) s' else .ok s' := by
      rw [digitLoop, rest, hexDigits_get low]
      show (s.push (digitChar (unum.toNat % b))).bind _ = _
      rw [push]
      rfl
    have zero : unum / base = 0 ↔ unum.toNat / b = 0 := by
      rw [← BitVec.toNat_inj, quotient]
      rfl
    rw [here]
    split
    · rename_i high
      rw [if_neg (mt zero.2 high)] at step
      have length := congrArg List.length step
      rw [List.length_append, List.length_singleton] at length
      have moved : s'.cur + 1 = s.cur := by
        have one := shows_.place
        have other := shows'.place
        rw [List.length_cons] at other
        omega
      rw [← quotient] at step length
      obtain ⟨s'', run, shows''⟩ := @ih (unum / base) s' _ shows' (by omega) (by omega)
      refine ⟨s'', run, ?_⟩
      rw [step, List.map_append, List.append_assoc]
      exact shows''
    · rename_i low
      rw [if_pos (zero.1 (not_not.1 low))] at step
      rw [step]
      exact ⟨s', rfl, shows'⟩

end Loop

section Read
variable {b n : Nat}

/-- Digits that are read back. -/
theorem readDigits_map (le : b ≤ 16) (ds : List Nat) (low : ∀ d ∈ ds, d < b) : readDigits b (ds.map digitChar) = some (ds.foldl (fun v d => v * b + d) 0) := by
  unfold readDigits
  generalize 0 = v
  induction ds generalizing v with
  | nil => rfl
  | cons d ds ih =>
    have lt := low d List.mem_cons_self
    rw [List.map_cons, List.foldlM_cons, digitChar_value d (by omega)]
    simp only [Option.bind_eq_bind, Option.bind_some, if_pos lt]
    exact ih (fun d mem => low d (List.mem_cons_of_mem _ mem)) _

/-- The string of a number. -/
def decimals (b : Nat) (v : Int) : List (BitVec 8) := (if v < 0 then [MINUS] else []) ++ (numeral b v.natAbs).map digitChar

theorem decimals_writes (more : 1 < b) (le : b ≤ 16) (v : Int) : Writes b (decimals b v) v := by
  have low : ∀ d ∈ numeral b v.natAbs, d < b := fun d mem => lt_of_mem_numeral more mem
  have digits : readDigits b ((numeral b v.natAbs).map digitChar) = some v.natAbs := by
    rw [readDigits_map le _ low, foldl_numeral]
  obtain ⟨d, ds, form⟩ := List.exists_cons_of_ne_nil (numeral_ne_nil b v.natAbs)
  have first : d < 16 := (low d (by rw [form]; exact List.mem_cons_self)).trans_le le
  obtain ⟨-, ne, -, zero⟩ := digitChar_printable d first
  have lead : digitChar d = 48#8 → v = 0 := by
    intro same
    by_contra nonzero
    have head := numeral_head (b := b) (Int.natAbs_ne_zero.2 nonzero)
    rw [form, zero same] at head
    exact head rfl
  unfold decimals
  by_cases neg : v < 0
  · rw [if_pos neg]
    refine ⟨?_, ?_, ?_⟩
    · rw [List.singleton_append, readNumber, if_pos rfl, if_neg (by simp [form]), digits, Option.map_some]
      congr 1
      omega
    · intro same
      cases same
    · intro rest same
      rw [List.singleton_append, List.cons.injEq] at same
      rw [← same.2, form, List.map_cons, List.head?_cons]
      intro zero
      have none := lead (Option.some.inj zero)
      omega
  · rw [if_neg neg, List.nil_append]
    have value : ((v.natAbs : Nat) : Int) = v := by omega
    refine ⟨?_, ?_, ?_⟩
    · rw [form, List.map_cons, readNumber, if_neg ne, ← List.map_cons, ← form, digits, Option.map_some, value]
    · rw [form, List.map_cons, NoLeadingZero, List.head?_cons]
      intro same
      obtain rfl := lead (Option.some.inj same)
      have whole : numeral b 0 = [0] := rfl
      rw [Int.natAbs_zero, whole] at form
      cases form
      rfl
    · intro rest same
      rw [form, List.map_cons, List.cons.injEq] at same
      exact absurd same.1 ne

end Read

section Numbers
variable {w b : Nat} {base : BitVec 32}

/-- The value a number is printed as. -/
def printed {w : Nat} (num : BitVec w) (sign : Bool) : Int := if sign then num.toInt else num.toNat

theorem signed_runs (pos : 0 < w) {x : Int} (low : -2 ^ (w - 1) ≤ x) (high : x < 2 ^ (w - 1)) :
    signed w x = .ok (BitVec.ofInt w x) ∧ (BitVec.ofInt w x).toInt = x :=
  ⟨if_pos ⟨low, high⟩, BitVec.toInt_ofInt_eq_self pos low high⟩

/-- The negation: one is added before it, so that the least number can be negated too. -/
theorem negation_runs (pos : 0 < w) {num : BitVec w} (neg : num.toInt < 0) : ∃ a c, signed w (num.toInt + 1) = .ok a ∧
    signed w (-a.toInt) = .ok c ∧ (c + 1).toNat = num.toInt.natAbs := by
  have least := BitVec.le_toInt num
  have some : (0 : Int) < 2 ^ (w - 1) := by positivity
  have half : (2 : Int) ^ w = 2 * 2 ^ (w - 1) := by rw [← pow_succ', Nat.sub_add_cancel pos]
  have half' : 2 ^ w = 2 * 2 ^ (w - 1) := by rw [← pow_succ', Nat.sub_add_cancel pos]
  have whole : ((2 ^ w : Nat) : Int) = 2 ^ w := by push_cast; rfl
  obtain ⟨run, value⟩ := @signed_runs w pos (num.toInt + 1) (by omega) (by omega)
  obtain ⟨run', -⟩ := @signed_runs w pos (-(num.toInt + 1)) (by omega) (by omega)
  refine ⟨_, _, run, by rw [value]; exact run', ?_⟩
  have one : (1 : BitVec w).toNat = 1 := by
    show (BitVec.ofNat w 1).toNat = 1
    rw [BitVec.toNat_ofNat, Nat.mod_eq_of_lt (Nat.one_lt_two_pow pos.ne')]
  rw [BitVec.toNat_add, BitVec.toNat_ofInt, one, whole, Int.emod_eq_of_lt (by omega) (by omega), Nat.mod_eq_of_lt (by omega)]
  omega

/-- **What the four functions have in common** leaves the string of the number. -/
theorem numberString_runs (num : BitVec w) (sign : Bool) (value : (base.signExtend w).toNat = b) (ten : 10 ≤ b) (le : b ≤ 16) (wide : 32 ≤ w)
    (narrow : w ≤ 64) : numberString w num base sign = .ok (decimals b (printed num sign)) := by
  have pos : 0 < w := by omega
  have unsigned : ∀ unum : BitVec w, (numeral b unum.toNat).length ≤ 20 := by
    intro unum
    apply length_numeral_le (by omega) (by decide)
    calc unum.toNat < 2 ^ w := unum.isLt
      _ ≤ 2 ^ 64 := Nat.pow_le_pow_right (by decide) narrow
      _ ≤ 10 ^ 20 := by decide
      _ ≤ b ^ 20 := Nat.pow_le_pow_left ten 20
  have empty : NumBuf.Shows w { buf := fun _ => 0, cur := w } [] := ⟨rfl, nofun, rfl⟩
  have ended : ∀ {s : NumBuf} {str : List (BitVec 8)}, s.Shows w str → (∀ c ∈ str, c ≠ 0) → readString s.buf (w + 1 - s.cur) s.cur = .ok str := by
    intro s str shows_ chars
    have place := shows_.place
    apply readString_shows s.buf str shows_.bytes
    · rw [place, shows_.last]
    · omega
    · exact chars
  have printable : ∀ n, ∀ c ∈ (numeral b n).map digitChar, c ≠ 0 := by
    intro n c mem
    obtain ⟨d, inside, rfl⟩ := List.mem_map.1 mem
    exact (digitChar_printable d ((lt_of_mem_numeral (by omega) inside).trans_le le)).1
  have digits : ∀ unum : BitVec w, ∃ s, digitLoop (base.signExtend w) (w + 1) unum { buf := fun _ => 0, cur := w } = .ok s ∧
      s.Shows w ((numeral b unum.toNat).map digitChar) := by
    intro unum
    have short := unsigned unum
    have enough : (numeral b unum.toNat).length ≤ w + 1 := by omega
    obtain ⟨s, run, shows_⟩ := digitLoop_shows value (by omega) le (w + 1) empty (by simp only; omega) enough
    rw [List.append_nil] at shows_
    exact ⟨s, run, shows_⟩
  have sides : (sign && decide (num.toInt < 0)) = decide (printed num sign < 0) := by
    cases sign with
    | true => rfl
    | false => simp [printed]
  unfold numberString
  dsimp only
  rw [sides]
  by_cases neg : printed num sign < 0
  · have minus : num.toInt < 0 ∧ printed num sign = num.toInt := by
      cases sign with
      | true => exact ⟨neg, rfl⟩
      | false => exact absurd neg (not_lt.2 (Int.natCast_nonneg _))
    obtain ⟨a, c, run, run', abs⟩ := negation_runs pos minus.1
    obtain ⟨s, loop, shows_⟩ := digits (c + 1)
    have short := unsigned (c + 1)
    have place := shows_.place
    rw [List.length_map] at place
    obtain ⟨s', push, shows'⟩ := shows_.push (by omega) MINUS
    have read := ended shows' (List.forall_mem_cons.2 ⟨by decide, printable _⟩)
    have form : decimals b (printed num sign) = MINUS :: (numeral b (c + 1).toNat).map digitChar := by
      rw [decimals, if_pos neg, abs, minus.2]
      rfl
    rw [form, ← read, decide_eq_true neg]
    simp only [if_true, run, run', loop, push, bind, Except.bind, pure, Except.pure]
  · have plus : (num.toNat : Int) = printed num sign := by
      cases sign with
      | true =>
        have cond := BitVec.toInt_eq_toNat_cond num
        have lt := num.isLt
        have nonneg : ¬ num.toInt < 0 := neg
        show (num.toNat : Int) = num.toInt
        split at cond
        · exact cond.symm
        · omega
      | false => rfl
    obtain ⟨s, loop, shows_⟩ := digits num
    have read := ended shows_ (printable _)
    have form : decimals b (printed num sign) = (numeral b num.toNat).map digitChar := by
      rw [decimals, if_neg neg, ← plus, Int.natAbs_natCast]
      rfl
    rw [form, ← read, decide_eq_false neg]
    simp only [Bool.false_eq_true, if_false, loop, bind, Except.bind, pure, Except.pure]

end Numbers

section Output
variable {out s : List (BitVec 8)}

theorem uartPutc_runs (c : BitVec 8) (out : List (BitVec 8)) : Kernel.uartPutc c out = .ok ((), out ++ [c]) := rfl

theorem write_runs (s : List (BitVec 8)) : ∀ out, Usr.write s out = .ok ((), out ++ s) := by
  induction s with
  | nil =>
    intro out
    rw [List.append_nil]
    rfl
  | cons c s ih =>
    intro out
    unfold Usr.write at ih ⊢
    rw [List.forM, bind_runs (uartPutc_runs c out), ih, List.append_assoc]
    rfl

/-- What the console makes of a character of the kernel. -/
def shown (c : BitVec 8) : List (BitVec 8) := if c = Kernel.BACKSPACE then [8#8, 32#8, 8#8] else [c]

theorem csputc_runs (c : BitVec 8) (out : List (BitVec 8)) : Kernel.csputc c out = .ok ((), out ++ shown c) := by
  unfold Kernel.csputc shown
  split
  · show Except.ok ((), out ++ [8#8] ++ [32#8] ++ [8#8]) = _
    simp
  · rfl

theorem csputs_runs (s : List (BitVec 8)) : ∀ out, s.forM Kernel.csputc out = .ok ((), out ++ s.flatMap shown) := by
  induction s with
  | nil =>
    intro out
    rw [List.flatMap_nil, List.append_nil]
    rfl
  | cons c s ih =>
    intro out
    rw [List.forM, bind_runs (csputc_runs c out), ih, List.append_assoc]
    rfl

theorem shown_all (clean : Kernel.BACKSPACE ∉ s) : s.flatMap shown = s := by
  induction s with
  | nil => rfl
  | cons c s ih =>
    rw [List.mem_cons, not_or] at clean
    rw [List.flatMap_cons, ih clean.2, shown, if_neg (Ne.symm clean.1)]
    rfl

theorem decimals_clean {b : Nat} (more : 1 < b) (le : b ≤ 16) (v : Int) : Kernel.BACKSPACE ∉ decimals b v := by
  unfold decimals
  rw [List.mem_append, not_or]
  constructor
  · split
    · decide
    · exact List.not_mem_nil
  · intro mem
    obtain ⟨d, inside, same⟩ := List.mem_map.1 mem
    exact (digitChar_printable d ((lt_of_mem_numeral more inside).trans_le le)).2.2.1 same

/-- Both bases fit, in both widths. -/
theorem base_values {base : BitVec 32} (ten_or_sixteen : base = 10#32 ∨ base = 16#32) :
    10 ≤ base.toNat ∧ base.toNat ≤ 16 ∧ (base.signExtend 32).toNat = base.toNat ∧ (base.signExtend 64).toNat = base.toNat := by
  rcases ten_or_sixteen with rfl | rfl
  · decide
  · decide

section Runs
variable {base : BitVec 32} (ten_or_sixteen : base = 10#32 ∨ base = 16#32) (sign : Bool) (out : List (BitVec 8))
include ten_or_sixteen

theorem printiu32_runs (num : BitVec 32) :
    Kernel.printiu32 num base sign out = .ok ((), out ++ decimals base.toNat (printed num sign)) ∧
      Usr.uprintiu32 num base sign out = .ok ((), out ++ decimals base.toNat (printed num sign)) := by
  obtain ⟨ten, le, narrow, -⟩ := base_values ten_or_sixteen
  have run := numberString_runs num sign narrow ten le (by decide) (by decide)
  have here : (liftM (numberString 32 num base sign) : OutM _) out = .ok (decimals base.toNat (printed num sign), out) := by
    rw [run]
    rfl
  constructor
  · rw [Kernel.printiu32, bind_runs here, csputs_runs, shown_all (decimals_clean (by omega) le _)]
  · rw [Usr.uprintiu32, bind_runs here, write_runs]

theorem printiu64_runs (num : BitVec 64) :
    Kernel.printiu64 num base sign out = .ok ((), out ++ decimals base.toNat (printed num sign)) ∧
      Usr.uprintiu64 num base sign out = .ok ((), out ++ decimals base.toNat (printed num sign)) := by
  obtain ⟨ten, le, -, wide⟩ := base_values ten_or_sixteen
  have run := numberString_runs num sign wide ten le (by decide) (by decide)
  have here : (liftM (numberString 64 num base sign) : OutM _) out = .ok (decimals base.toNat (printed num sign), out) := by
    rw [run]
    rfl
  constructor
  · rw [Kernel.printiu64, bind_runs here, csputs_runs, shown_all (decimals_clean (by omega) le _)]
  · rw [Usr.uprintiu64, bind_runs here, write_runs]

end Runs

/-- **Numbers are printed as they are read.** -/
theorem numbers_written {base : BitVec 32} (ten_or_sixteen : base = 10#32 ∨ base = 16#32) (sign : Bool) (out : List (BitVec 8)) :
    (∀ num : BitVec 32, ∃ s, Kernel.printiu32 num base sign out = .ok ((), out ++ s) ∧
      Usr.uprintiu32 num base sign out = .ok ((), out ++ s) ∧ Writes base.toNat s (printed num sign)) ∧
    ∀ num : BitVec 64, ∃ s, Kernel.printiu64 num base sign out = .ok ((), out ++ s) ∧
      Usr.uprintiu64 num base sign out = .ok ((), out ++ s) ∧ Writes base.toNat s (printed num sign) := by
  obtain ⟨ten, le, -⟩ := base_values ten_or_sixteen
  have writes : ∀ v, Writes base.toNat (decimals base.toNat v) v := decimals_writes (by omega) le
  constructor
  · intro num
    obtain ⟨kernel, user⟩ := printiu32_runs ten_or_sixteen sign out num
    exact ⟨_, kernel, user, writes _⟩
  · intro num
    obtain ⟨kernel, user⟩ := printiu64_runs ten_or_sixteen sign out num
    exact ⟨_, kernel, user, writes _⟩

/-- The least number of 32 bits, in base 10. -/
theorem least_number_written : ∃ s, Kernel.printiu32 (BitVec.intMin 32) 10#32 true [] = .ok ((), s) ∧
    Usr.uprintiu32 (BitVec.intMin 32) 10#32 true [] = .ok ((), s) ∧ Writes 10 s (-2147483648) :=
  (numbers_written (.inl rfl) true []).1 (BitVec.intMin 32)

end Output

end Aarch64Os
