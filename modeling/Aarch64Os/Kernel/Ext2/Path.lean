import Mathlib
import Aarch64Os.Base.Words
import Aarch64Os.Kernel.Ext2.Itable
import Aarch64Os.Kernel.Strings

/-!
# Scanning paths and walking directories (`kernel/ext2.c`)

A path pointer is the characters between it and the NUL. `skippath` copies the next component
into the name buffer, character by character with whatever ends it, and both traversals look
it up. They differ in their test for the end of the path.
-/

namespace Aarch64Os.Kernel
set_option autoImplicit false
open Base

/-- `'/'`. -/
def SLASH : Chr := ⟨47#8, by decide⟩

/-- `char name[DIRENT_NAME_MAX]`. -/
abbrev NameBuf : Type := Fin DIRENT_NAME_MAX → BitVec 8

/-- The buffer after `memset(name, 0, DIRENT_NAME_MAX)`. -/
def NameBuf.zero : NameBuf := fun _ => 0

/-- `name[i] = c`. -/
def NameBuf.store (name : NameBuf) (i : Nat) (c : BitVec 8) : Except Fault NameBuf :=
  if h : i < DIRENT_NAME_MAX then .ok (Function.update name ⟨i, h⟩ c) else .error .undefined

/-- The memory a pointer to the buffer may read. -/
def NameBuf.mem (name : NameBuf) : List (BitVec 8) := List.ofFn name

/-- The string in the buffer. -/
def NameBuf.str (name : NameBuf) : List (BitVec 8) := name.mem.takeWhile (· ≠ 0)

/-- The copying loop of `skippath`, with `len` characters copied: how long the component is
and where the path goes on, or nothing when it is too long. -/
def copyElem (name : NameBuf) (len : Nat) : List Chr → Except Fault (NameBuf × Option (Nat × List Chr))
  | [] => (name.store len 0).map fun name => (name, some (len, []))
  | c :: path => do
    let name ← name.store len c.val
    if c = SLASH then pure (name, some (len, path))
    else if len + 1 > DIRENT_NAME_MAX then pure (name, none)
    else copyElem name (len + 1) path

/-- `skippath`; nothing is returned for the path when `*err` is set. -/
def skippath (path : List Chr) (name : NameBuf) : Except Fault (NameBuf × Option (List Chr)) := do
  match ← copyElem name 0 (path.dropWhile (· = SLASH)) with
  | (name, none) => pure (name, none)
  | (name, some (len, path)) =>
    if byte name len = SLASH.val then (name.store len 0).map fun name => (name, some path)
    else pure (name, some path)

/-- `traverse_inode`. Each round but the last takes a character of the path at least. -/
def traverseInode : Nat → Option InodeId → List Chr → NameBuf → FsM (Option InodeId)
  | 0, _, _, _ => throw .hang
  | left + 1, pi, path, name => do
    let (name, path) ← liftM (skippath path name)
    match path, pi with
    | none, _ => pure none
    | some path, pi =>
      if path = [] ∧ name 0 = 0 then pure pi
      else
        match pi with
        | none => throw .undefined
        | some pi => do
          let s ← get
          if ! S_ISDIR (s.itable pi).mode then pure (some pi)
          else
            let inum ← ext2SearchDir pi name.mem
            if inum < 0 then pure none
            else
              let next ← ext2GetInode (BitVec.ofInt 32 inum)
              traverseInode left next path NameBuf.zero

/-- `traverse_inode_parent`, with the name it leaves in the buffer. -/
def traverseInodeParent : Nat → Option InodeId → List Chr → NameBuf → FsM (Option InodeId × NameBuf)
  | 0, _, _, _ => throw .hang
  | left + 1, pi, path, name => do
    let (name, path) ← liftM (skippath path name)
    match path, pi with
    | none, _ => pure (none, name)
    | some path, pi =>
      if path = [] then pure (pi, name)
      else
        match pi with
        | none => throw .undefined
        | some pi => do
          let s ← get
          if ! S_ISDIR (s.itable pi).mode then pure (some pi, name)
          else
            let inum ← ext2SearchDir pi name.mem
            if inum < 0 then pure (none, name)
            else
              let next ← ext2GetInode (BitVec.ofInt 32 inum)
              traverseInodeParent left next path NameBuf.zero

/-- `EXT2_ROOT_INO`. -/
def EXT2_ROOT_INO : BitVec 32 := 2#32

/-- Where a path starts: at the root, or at `myproc()->cwd`. -/
def pathStart (cwd : InodeId) (path : List Chr) : FsM (Option InodeId) :=
  if path.head? = some SLASH then ext2GetInode EXT2_ROOT_INO else pure (some cwd)

/-- `ext2_path2inode`. -/
def ext2Path2inode (cwd : InodeId) (path : List Chr) : FsM (Option InodeId) := do
  let ino ← pathStart cwd path
  traverseInode (path.length + 1) ino path NameBuf.zero

/-- `ext2_path2inode_parent`, for callers that pass a zeroed buffer. -/
def ext2Path2inodeParent (cwd : InodeId) (path : List Chr) : FsM (Option InodeId × NameBuf) := do
  let ino ← pathStart cwd path
  traverseInodeParent (path.length + 1) ino path NameBuf.zero

/-- The buffer with characters from `len` on, and a byte behind them. -/
def NameBuf.putAt (name : NameBuf) (len : Nat) (w : List Chr) (last : BitVec 8) : NameBuf := fun i =>
  if i.val < len then name i
  else if h : i.val - len < w.length then w[i.val - len].val
  else if i.val = len + w.length then last
  else name i

/-- The buffer with a string and its NUL at the front. -/
def NameBuf.put (name : NameBuf) (w : List Chr) : NameBuf := name.putAt 0 w 0

theorem zero_not_mem_bytesOf (w : List Chr) : 0 ∉ bytesOf w := by
  intro mem
  obtain ⟨c, -, zero⟩ := List.mem_map.1 mem
  exact c.property zero

@[simp] theorem bytesOf_length (w : List Chr) : (bytesOf w).length = w.length := List.length_map ..

theorem NameBuf.store_ok (name : NameBuf) {i : Nat} (lt : i < DIRENT_NAME_MAX) (c : BitVec 8) :
    name.store i c = .ok (Function.update name ⟨i, lt⟩ c) := dif_pos lt

/-- The memory behind a pointer to the buffer is the string, a NUL, and the rest. -/
theorem NameBuf.put_mem (name : NameBuf) {w : List Chr} (short : w.length < DIRENT_NAME_MAX) :
    ∃ tail, (name.put w).mem = bytesOf w ++ 0 :: tail := by
  refine ⟨name.mem.drop (w.length + 1), ?_⟩
  apply List.ext_getElem
  · simp only [NameBuf.mem, List.length_ofFn, List.length_append, bytesOf_length, List.length_cons, List.length_drop]
    omega
  · intro i hi hi'
    rw [List.getElem_append]
    simp only [NameBuf.mem, List.getElem_ofFn, NameBuf.put, NameBuf.putAt, bytesOf_length, Nat.not_lt_zero, if_false,
      Nat.sub_zero, Nat.zero_add]
    by_cases inside : i < w.length
    · simp [inside, bytesOf]
    · rw [dif_neg inside, dif_neg inside, List.getElem_cons]
      by_cases last : i = w.length
      · rw [if_pos last, dif_pos (by omega)]
      · rw [if_neg last, dif_neg (by omega), List.getElem_drop, List.getElem_ofFn]
        congr 1
        apply Fin.ext
        simp only
        omega

/-- A component leaves a character at the front of the buffer. -/
theorem NameBuf.put_zero (name : NameBuf) {w : List Chr} (ne : w ≠ []) : (name.put w) 0 ≠ 0 := by
  have pos := List.length_pos_of_ne_nil ne
  simpa [NameBuf.put, NameBuf.putAt, pos] using w[0].property

/-- The string in the buffer is that string. -/
theorem NameBuf.put_str (name : NameBuf) {w : List Chr} (short : w.length < DIRENT_NAME_MAX) :
    (name.put w).str = bytesOf w := by
  obtain ⟨tail, mem⟩ := name.put_mem short
  rw [NameBuf.str, mem, List.takeWhile_append_of_pos]
  · simp
  · intro c hc
    have ne : c ≠ 0 := fun e => zero_not_mem_bytesOf w (e ▸ hc)
    simpa using ne

theorem NameBuf.putAt_nil (name : NameBuf) {len : Nat} (lt : len < DIRENT_NAME_MAX) (last : BitVec 8) :
    name.putAt len [] last = Function.update name ⟨len, lt⟩ last := by
  funext i
  simp only [NameBuf.putAt, Function.update_apply, Fin.ext_iff, List.length_nil]
  split
  · rw [if_neg (by omega)]
  · simp

theorem NameBuf.putAt_cons (name : NameBuf) {len : Nat} (lt : len < DIRENT_NAME_MAX) (c : Chr) (w : List Chr) (last : BitVec 8) :
    name.putAt len (c :: w) last = NameBuf.putAt (Function.update name ⟨len, lt⟩ c.val) (len + 1) w last := by
  funext i
  simp only [NameBuf.putAt, Function.update_apply, Fin.ext_iff, List.length_cons]
  rcases Nat.lt_trichotomy i.val len with before | here | behind
  · rw [if_pos before, if_pos (by omega), if_neg (by omega)]
  · simp [here]
  · have out : ¬ i.val = len := by omega
    have index : i.val - len = i.val - (len + 1) + 1 := by omega
    have low : ¬ i.val < len := by omega
    have low' : ¬ i.val < len + 1 := by omega
    rw [if_neg low, if_neg low', if_neg out]
    simp only [index, Nat.add_lt_add_iff_right, List.getElem_cons_succ]
    by_cases inside : i.val - (len + 1) < w.length
    · rw [dif_pos inside, dif_pos inside]
    · rw [dif_neg inside, dif_neg inside]
      by_cases atEnd : i.val = len + 1 + w.length
      · rw [if_pos atEnd, if_pos (by omega)]
      · rw [if_neg atEnd, if_neg (by omega)]

/-- The byte in front of which the copying stops: the separator, or the NUL. -/
def stopByte (rest : List Chr) : BitVec 8 := (rest.head?.map Subtype.val).getD 0

/-- The copying loop on a component. -/
theorem copyElem_eq {w rest : List Chr} (free : SLASH ∉ w) (stop : rest = [] ∨ rest.head? = some SLASH) :
    ∀ (name : NameBuf) (len : Nat), len + w.length < DIRENT_NAME_MAX →
      copyElem name len (w ++ rest) = .ok (name.putAt len w (stopByte rest), some (len + w.length, rest.tail)) := by
  induction w with
  | nil =>
    intro name len short
    rw [List.length_nil, Nat.add_zero] at short
    rw [NameBuf.putAt_nil name short]
    rcases stop with rfl | stop
    · simp [copyElem, name.store_ok short, Except.map, stopByte]
    · obtain ⟨rest', rfl⟩ : ∃ r, rest = SLASH :: r := by
        cases rest with
        | nil => simp at stop
        | cons c r => exact ⟨r, by rw [Option.some.inj stop]⟩
      simp [copyElem, name.store_ok short, stopByte, bind, Except.bind, pure, Except.pure]
  | cons c w ih =>
    intro name len short
    rw [List.length_cons] at short
    rw [List.mem_cons, not_or] at free
    have here : len < DIRENT_NAME_MAX := by omega
    rw [NameBuf.putAt_cons name here, List.cons_append, copyElem, name.store_ok here]
    simp only [bind, Except.bind]
    rw [if_neg (Ne.symm free.1), if_neg (by omega), ih free.2 _ _ (by omega), List.length_cons,
      show len + 1 + w.length = len + (w.length + 1) by omega]

theorem NameBuf.byte_putAt (name : NameBuf) (w : List Chr) (last : BitVec 8) (short : w.length < DIRENT_NAME_MAX) :
    byte (name.putAt 0 w last) w.length = last := by
  simp [byte, NameBuf.putAt, short]

/-- A separator behind the component makes way for the NUL. -/
theorem NameBuf.store_putAt (name : NameBuf) (w : List Chr) (last : BitVec 8) (short : w.length < DIRENT_NAME_MAX) :
    (name.putAt 0 w last).store w.length 0 = .ok (name.put w) := by
  rw [NameBuf.store_ok _ short]
  congr 1
  funext i
  simp only [Function.update_apply, Fin.ext_iff, NameBuf.put, NameBuf.putAt, Nat.not_lt_zero, if_false, Nat.sub_zero,
    Nat.zero_add]
  by_cases here : i.val = w.length
  · rw [if_pos here, dif_neg (by omega), if_pos here]
  · rw [if_neg here]
    split <;> rfl

theorem copyElem_long {w rest : List Chr} (free : SLASH ∉ w) :
    ∀ (name : NameBuf) (len : Nat), len ≤ DIRENT_NAME_MAX → DIRENT_NAME_MAX ≤ len + w.length →
      copyElem name len (w ++ rest) = .error .undefined := by
  have full : ∀ (name : NameBuf) (c : BitVec 8), name.store DIRENT_NAME_MAX c = .error .undefined :=
    fun _ _ => dif_neg (Nat.lt_irrefl _)
  induction w with
  | nil =>
    intro name len le long
    obtain rfl : len = DIRENT_NAME_MAX := by simp only [List.length_nil] at long; omega
    cases rest with
    | nil => simp [copyElem, full, Except.map]
    | cons c rest => simp [copyElem, full, bind, Except.bind]
  | cons c w ih =>
    intro name len le long
    rw [List.length_cons] at long
    rw [List.mem_cons, not_or] at free
    rw [List.cons_append, copyElem]
    rcases Nat.eq_or_lt_of_le le with rfl | lt
    · rw [full]
      rfl
    · rw [name.store_ok lt]
      simp only [bind, Except.bind]
      rw [if_neg (Ne.symm free.1), if_neg (by omega)]
      exact ih free.2 _ _ (by omega) (by omega)

/-- **`skippath`** at a component. -/
theorem skippath_word {path w rest : List Chr} (at_w : path.dropWhile (· = SLASH) = w ++ rest) (free : SLASH ∉ w)
    (stop : rest = [] ∨ rest.head? = some SLASH) (short : w.length < DIRENT_NAME_MAX) (name : NameBuf) :
    skippath path name = .ok (name.put w, some rest.tail) := by
  have copied := copyElem_eq free stop name 0 (by omega)
  rw [Nat.zero_add] at copied
  rw [skippath, at_w, copied]
  simp only [bind, Except.bind, name.byte_putAt w _ short]
  rcases stop with rfl | stop
  · rw [if_neg (by decide)]
    rfl
  · rw [if_pos (by simp [stopByte, stop]), name.store_putAt w _ short]
    rfl

/-- `skippath` at the end of the path. -/
theorem skippath_end {path : List Chr} (ending : path.dropWhile (· = SLASH) = []) (name : NameBuf) :
    skippath path name = .ok (name.put [], some []) :=
  skippath_word (w := []) ending List.not_mem_nil (.inl rfl) (by decide) name

/-- A component that does not fit the buffer is written past its end. -/
theorem skippath_long {path w rest : List Chr} (at_w : path.dropWhile (· = SLASH) = w ++ rest) (free : SLASH ∉ w)
    (long : DIRENT_NAME_MAX ≤ w.length) (name : NameBuf) : skippath path name = .error .undefined := by
  rw [skippath, at_w, copyElem_long free name 0 (by decide) (by omega)]
  rfl

end Aarch64Os.Kernel
