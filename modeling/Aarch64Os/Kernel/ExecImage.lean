import Aarch64Os.Kernel.Exec
import Aarch64Os.Kernel.Mm.FreshPages

/-!
# The image that `exec` loads (`kernel/proc.c`, `kernel/mm.c`)

What each loop of `exec` leaves in the pages of the new table. A segment is in pages that were free,
so that loading it changes no byte of a segment before it, and bytes behind what is read of the file
are those of a page that `kalloc` has cleared. Nothing is written to a page that was in use when the
call began before the call can fail no more.
-/

namespace Aarch64Os.Kernel.Exec
set_option autoImplicit false
open Base

/-- What a user finds at an address. -/
def userByte (t : PageTable) (mem : ByteMem) (va : Nat) : Option Byte := (t.pte va).map fun pte => mem (pte.addr va)

/-- `read_inode` puts no more into the buffer than it is asked for. -/
def Short (read : Reader) : Prop := ∀ off size, (read off size).2.length ≤ size

/-- `read_inode` of a file with these bytes: when it returns the size asked for, the file is that
long, and these are its bytes there. -/
structure Reads (read : Reader) (bytes : List Byte) : Prop where
  small : bytes.length < 2 ^ 32
  short : Short read
  whole : ∀ off size, (read off size).1 = size → off + size ≤ bytes.length ∧ (read off size).2 = (bytes.drop off).take size

/-- The program header at an offset of the file. -/
def phdrAt (bytes : List Byte) (off : Nat) : Segment := Segment.decode ((bytes.drop off).take Segment.sizeof)

/-- The segment is in memory: its bytes of the file, and zeros behind them. -/
def Segment.Loaded (ph : Segment) (bytes : List Byte) (t : PageTable) (mem : ByteMem) : Prop :=
  ∀ k < ph.p_memsz, ∃ b, userByte t mem (ph.p_vaddr + k) = some b ∧
    (k < ph.p_filesz → bytes[ph.p_offset + k]? = some b) ∧ (ph.p_filesz ≤ k → b = 0)

/-- The segment lies below the stack, and is not longer in the file than in memory. -/
def Segment.Below (ph : Segment) : Prop := ph.p_vaddr + ph.p_memsz ≤ USTACKBOTTOM ∧ ph.p_filesz ≤ ph.p_memsz

instance (ph : Segment) : Decidable ph.Below := inferInstanceAs (Decidable (_ ∧ _))

/-- What a part of `exec` does to the new table, and leaves of the state. -/
structure Keeps (pool : PageNo → Prop) (t : PageTable) (s : State) (t' : PageTable) (u : State) : Prop where
  fresh : t'.Fresh u.kmem pool
  grows : t.Grows s.kmem t' u.kmem
  proc : u.proc = s.proc
  ttbr0 : u.ttbr0 = s.ttbr0

/-- Memory changes only in pages of `pool`. -/
def Outside (pool : PageNo → Prop) (m m' : ByteMem) : Prop := ∀ a, ¬ pool (a / PAGESIZE) → m' a = m a

/-- The bytes at the addresses of `t` are the same. -/
def SameAt (t : PageTable) (m m' : ByteMem) : Prop := ∀ va pte, t.pte va = some pte → m' (pte.addr va) = m (pte.addr va)

section Steps
variable {pool : PageNo → Prop} {t t' t'' : PageTable} {s u v : State} {m m' m'' : ByteMem} {bytes : List Byte} {ph : Segment}

theorem Keeps.trans (first : Keeps pool t s t' u) (second : Keeps pool t' u t'' v) : Keeps pool t s t'' v where
  fresh := second.fresh
  grows := first.grows.trans second.grows
  proc := second.proc.trans first.proc
  ttbr0 := second.ttbr0.trans first.ttbr0

theorem Outside.trans (first : Outside pool m m') (second : Outside pool m' m'') : Outside pool m m'' :=
  fun a out => (second a out).trans (first a out)

/-- A segment stays in memory. -/
theorem Segment.Loaded.keep (h : ph.Loaded bytes t m) (kept : ∀ va pte, t.pte va = some pte → t'.pte va = some pte)
    (same : SameAt t m m') : ph.Loaded bytes t' m' := by
  intro k lt
  obtain ⟨b, there, file, zero⟩ := h k lt
  obtain ⟨pte, entry, rfl⟩ := Option.map_eq_some_iff.1 there
  refine ⟨_, ?_, file, zero⟩
  rw [userByte, kept _ pte entry, Option.map_some, same _ pte entry]

/-- A function of `mm.c` is called. -/
theorem onPages_after {α : Type} {f : MmM α} {post : α → Kallocator → Prop} (h : After f s.kmem post) :
    After (onPages f) s fun a u => post a u.kmem ∧ u.mem = clear s.kmem u.kmem s.mem ∧ u.proc = s.proc ∧ u.ttbr0 = s.ttbr0 := by
  intro a u run
  unfold onPages at run
  cases result : f s.kmem with
  | error e =>
    rw [result] at run
    cases run
  | ok r =>
    rw [result] at run
    cases run
    exact ⟨h _ _ result, rfl, rfl, rfl⟩

/-- A page that was free is clear. -/
theorem clear_free {k k' : Kallocator} {a : Nat} (free : a / PAGESIZE ∈ k.freelist) : clear k k' m a = 0 := if_pos (.inl free)

/-- Another one is as it was. -/
theorem clear_used {k k' : Kallocator} {a : Nat} (suffix : k'.freelist <:+ k.freelist) (used : a / PAGESIZE ∉ k.freelist) :
    clear k k' m a = m a := if_neg (not_or.2 ⟨used, fun mem => used (suffix.subset mem)⟩)

/-- What a call that takes pages does to memory. -/
theorem clear_outside {k k' : Kallocator} (free : ∀ page ∈ k.freelist, pool page) (suffix : k'.freelist <:+ k.freelist) :
    Outside pool m (clear k k' m) := fun _ out => clear_used suffix fun mem => out (free _ mem)

theorem clear_sameAt {k k' : Kallocator} (fresh : t.Fresh k pool) (suffix : k'.freelist <:+ k.freelist) : SameAt t m (clear k k' m) := by
  intro va pte there
  apply clear_used suffix
  rw [pte.addr_page]
  exact (fresh.taken va pte there).2

end Steps

section Load
variable {pool : PageNo → Prop} {read : Reader} {va srcoff filesz : Nat}

/-- In the pages in use, memory changes only at the addresses of bytes `p` and later of the segment. -/
def Writes (t : PageTable) (va filesz p : Nat) (s u : State) : Prop :=
  ∀ a, a / PAGESIZE ∉ s.kmem.freelist →
    u.mem a = s.mem a ∨ ∃ x pte, x < filesz ∧ (filesz < 2 ^ 39 → p ≤ x) ∧ t.pte (va + x) = some pte ∧ a = pte.addr (va + x)

/-- The bytes `p` and later of the segment are those of the file. -/
def Filled (bytes : List Byte) (t : PageTable) (va srcoff filesz p : Nat) (m : ByteMem) : Prop :=
  ∀ x, p ≤ x → x < filesz → ∃ b, bytes[srcoff + x]? = some b ∧ userByte t m (va + x) = some b

theorem memcpy_runs (dst : Nat) (src : List Byte) (s : State) : memcpy dst src s = .ok ((), { s with mem := s.mem.store dst src }) := rfl

/-- A page of the segment, at its user and its physical addresses. -/
theorem page_addr {t : PageTable} {pte : Pte} {p : Nat} (aligned : va % PAGESIZE = 0) (whole : p % PAGESIZE = 0)
    (there : t.pte ((va + p) % U64) = some pte) {x : Nat} (le : p ≤ x) (lt : x < p + PAGESIZE) :
    t.pte (va + x) = some pte ∧ pte.addr (va + x) = pte.page * PAGESIZE + (x - p) := by
  constructor
  · rw [← there]
    apply t.pte_vpn
    simp only [vpn, PAGESIZE, U64] at *
    omega
  · simp only [Pte.addr, PAGESIZE] at *
    omega

/-- The loop of `load_prg` from byte `p` on. -/
theorem loadPages_after (left : Nat) : ∀ {t : PageTable} {s : State} {p : Nat}, t.Fresh s.kmem pool → va % PAGESIZE = 0 → p % PAGESIZE = 0 →
    After (loadPages read va srcoff filesz left t p) s fun r u => Keeps pool t s r.2 u ∧ (∀ va, r.2.pte va = t.pte va) ∧
      (Short read → Writes t va filesz p s u) ∧
      (∀ bytes, Reads read bytes → 0 ≤ r.1 → filesz < 2 ^ 39 → va + filesz ≤ 2 ^ 39 → srcoff + p < U64 → Filled bytes t va srcoff filesz p u.mem) := by
  induction left with
  | zero => exact fun _ _ _ => After.throw _
  | succ left ih =>
    intro t s p fresh aligned whole
    unfold loadPages
    split
    case isFalse ending =>
      apply After.pure
      refine ⟨⟨fresh, PageTable.Grows.refl t s.kmem, rfl, rfl⟩, fun _ => rfl, fun _ _ _ => .inl rfl, ?_⟩
      intro _ _ _ _ _ _ x le lt
      omega
    case isTrue more =>
    refine (onPages_after (uva2pa_after t ((va + p) % U64) s.kmem)).bind ?_
    rintro ⟨pa, t'⟩ u ⟨⟨same, suffix, found⟩, cleared, proc, ttbr0⟩
    have fresh' : t'.Fresh u.kmem pool := fresh.walk same suffix
    have keeps : Keeps pool t s t' u := ⟨fresh', .walk same suffix, proc, ttbr0⟩
    have walk : ∀ a, a / PAGESIZE ∉ s.kmem.freelist → u.mem a = s.mem a := by
      intro a used
      rw [cleared]
      exact clear_used suffix used
    dsimp only at same found ⊢
    split
    case isTrue =>
      apply After.pure
      refine ⟨keeps, same, fun _ a used => .inl (walk a used), ?_⟩
      intro _ _ never
      exact absurd (show (0 : Int) ≤ -1 from never) (by decide)
    case isFalse nonzero =>
    have start : (va + p) % U64 % PAGESIZE = 0 := by
      simp only [U64, PAGESIZE] at *
      omega
    simp only [start, Nat.add_zero, nonzero, false_or] at found
    obtain ⟨pte, there, rfl⟩ := found
    generalize size : (if filesz - p < PAGESIZE then filesz - p else PAGESIZE) = cpsz
    have cut : cpsz ≤ PAGESIZE ∧ p + cpsz ≤ filesz ∧ (cpsz = PAGESIZE ∨ p + cpsz = filesz) := by
      by_cases small : filesz - p < PAGESIZE
      · rw [if_pos small] at size
        omega
      · rw [if_neg small] at size
        omega
    obtain ⟨most, inside, last⟩ := cut
    cases chunk : read ((srcoff + p) % U64) cpsz with
    | mk n data =>
    dsimp only
    refine After.step (memcpy_runs ..) ?_
    -- what is written is in the page, and part of the segment
    have writes : Short read → ∀ {w : State}, w.mem = u.mem.store (pte.page * PAGESIZE) data → Writes t va filesz p s w := by
      intro short w stored a used
      have few : data.length ≤ cpsz := by
        have few := short ((srcoff + p) % U64) cpsz
        rwa [chunk] at few
      rcases Nat.lt_or_ge a (pte.page * PAGESIZE) with before | behind
      · rw [stored, ByteMem.store_outside _ (.inl before)]
        exact .inl (walk a used)
      · rcases Nat.lt_or_ge a (pte.page * PAGESIZE + data.length) with here | after
        · obtain ⟨entry, place⟩ := page_addr (x := p + (a - pte.page * PAGESIZE)) aligned whole there (by omega) (by omega)
          refine .inr ⟨_, pte, by omega, fun _ => Nat.le_add_right .., entry, ?_⟩
          omega
        · rw [stored, ByteMem.store_outside _ (.inr after)]
          exact .inl (walk a used)
    have keeps' : Keeps pool t s t' { u with mem := u.mem.store (pte.page * PAGESIZE) data } := ⟨keeps.fresh, keeps.grows, keeps.proc, keeps.ttbr0⟩
    split
    case isTrue =>
      apply After.pure
      refine ⟨keeps', same, fun short => writes short rfl, ?_⟩
      intro _ _ never
      exact absurd (show (0 : Int) ≤ -1 from never) (by decide)
    case isFalse all =>
    have full : n = cpsz := by omega
    have next : (p + PAGESIZE) % U64 % PAGESIZE = 0 := by
      simp only [U64, PAGESIZE] at *
      omega
    refine (ih keeps'.fresh aligned next).mono ?_
    rintro r w ⟨keeps'', same', writes', filled⟩
    refine ⟨keeps'.trans keeps'', fun va => (same' va).trans (same va), ?_, ?_⟩
    · intro short a used
      rcases writes' short a (fun mem => used (suffix.subset mem)) with quiet | ⟨x, pte', lt, le, entry, place⟩
      · rw [quiet]
        exact writes short rfl a used
      · refine .inr ⟨x, pte', lt, fun small => ?_, (same _).symm.trans entry, place⟩
        have le := le small
        rw [Nat.mod_eq_of_lt (by simp only [PAGESIZE, U64] at *; omega)] at le
        omega
    · intro bytes reads done small low wrap x le lt
      obtain ⟨fits, content⟩ := reads.whole ((srcoff + p) % U64) cpsz (by rw [chunk]; exact full)
      rw [chunk] at content
      dsimp only at content
      rw [Nat.mod_eq_of_lt wrap] at fits content
      have sized := reads.small
      rcases Nat.lt_or_ge x (p + cpsz) with here | later
      · -- a byte of this page, which the rounds behind it leave
        obtain ⟨entry, place⟩ := page_addr aligned whole there le (by omega)
        have position : x - p < data.length := by
          rw [content, List.length_take, List.length_drop]
          omega
        refine ⟨data[x - p], ?_, ?_⟩
        · rw [List.getElem?_eq_some_iff]
          have file : srcoff + p + (x - p) = srcoff + x := by omega
          refine ⟨by omega, ?_⟩
          simp only [content, List.getElem_take, List.getElem_drop, file]
        · rw [userByte, entry, Option.map_some]
          apply congrArg some
          have used : pte.addr (va + x) / PAGESIZE ∉ u.kmem.freelist := by
            rw [pte.addr_page]
            exact (fresh'.taken _ pte ((same _).trans entry)).2
          rcases writes' reads.short _ used with quiet | ⟨x', pte', lt', le', entry', place'⟩
          · rw [quiet, place]
            exact ByteMem.store_inside _ _ position
          · have le' := le' small
            rw [Nat.mod_eq_of_lt (by simp only [PAGESIZE, U64] at *; omega)] at le'
            have again := fresh'.addr_inj ((same _).trans entry) entry' (by omega) (by omega) place'
            omega
      · rcases last with page | ending
        · rw [Nat.mod_eq_of_lt (by simp only [PAGESIZE, U64] at *; omega)] at filled
          obtain ⟨b, file, there⟩ := filled bytes reads done small low (by simp only [PAGESIZE, U64] at *; omega) x (by omega) lt
          refine ⟨b, file, ?_⟩
          rw [userByte, same] at there
          exact there
        · omega

/-- `load_prg`. -/
theorem loadPrg_after {t : PageTable} {s : State} (fresh : t.Fresh s.kmem pool) :
    After (loadPrg t va read srcoff filesz) s fun r u => Keeps pool t s r.2 u ∧ (∀ va, r.2.pte va = t.pte va) ∧
      (Short read → Writes t va filesz 0 s u) ∧
      (∀ bytes, Reads read bytes → 0 ≤ r.1 → filesz < 2 ^ 39 → va + filesz ≤ 2 ^ 39 → srcoff < U64 → Filled bytes t va srcoff filesz 0 u.mem) := by
  unfold loadPrg
  split
  case isTrue =>
    apply After.pure
    refine ⟨⟨fresh, PageTable.Grows.refl t s.kmem, rfl, rfl⟩, fun _ => rfl, fun _ _ _ => .inl rfl, ?_⟩
    intro _ _ never
    exact absurd (show (0 : Int) ≤ -1 from never) (by decide)
  case isFalse aligned => exact loadPages_after _ fresh (not_not.1 aligned) rfl

/-- What is loaded is in pages of `pool`. -/
theorem Writes.outside {t : PageTable} {s u : State} {p : Nat} (fresh : t.Fresh s.kmem pool) (writes : Writes t va filesz p s u) :
    Outside pool s.mem u.mem := by
  intro a out
  rcases writes a fun mem => out (fresh.free _ mem) with quiet | ⟨x, pte, -, -, entry, rfl⟩
  · exact quiet
  · rw [pte.addr_page] at out
    exact absurd (fresh.taken _ pte entry).1 out

end Load

section Headers
variable {pool : PageNo → Prop} {read : Reader} {bytes : List Byte} {t t' t'' : PageTable} {s u v : State} {ph : Segment}

/-- A header that has been read is one of the file. -/
theorem readPhdr_some (reads : Reads read bytes) {off : Nat} (header : readPhdr read off = some ph) :
    off + Segment.sizeof < 2 ^ 32 ∧ ph = phdrAt bytes off := by
  unfold readPhdr at header
  cases chunk : read off Segment.sizeof with
  | mk n buf =>
    rw [chunk] at header
    dsimp only at header
    split at header
    case isTrue => cases header
    case isFalse all =>
      cases header
      obtain ⟨fits, content⟩ := reads.whole off Segment.sizeof (by rw [chunk]; exact not_not.1 all)
      rw [chunk] at content
      dsimp only at content
      refine ⟨fits.trans_lt reads.small, ?_⟩
      rw [content]
      rfl

/-- A segment that has got its pages, and then its bytes, is in memory; the rest is as it was. -/
theorem segment_loaded (below : ph.Below) (fresh : t.Fresh s.kmem pool) (fresh' : t'.Fresh u.kmem pool) (grows : t.Grows s.kmem t' u.kmem)
    (pages : ∀ x < ph.p_memsz, ∃ pte, t'.pte (ph.p_vaddr + x) = some pte ∧ pte.page ∈ s.kmem.freelist)
    (cleared : u.mem = clear s.kmem u.kmem s.mem) (same : ∀ va, t''.pte va = t'.pte va)
    (writes : Writes t' ph.p_vaddr ph.p_filesz 0 u v) (filled : Filled bytes t' ph.p_vaddr ph.p_offset ph.p_filesz 0 v.mem) :
    ph.Loaded bytes t'' v.mem ∧ SameAt t s.mem v.mem := by
  obtain ⟨low, short⟩ := below
  have top : USTACKBOTTOM ≤ 2 ^ 39 := by decide
  have used : ∀ va pte, t'.pte va = some pte → pte.addr va / PAGESIZE ∉ u.kmem.freelist := by
    intro va pte entry
    rw [pte.addr_page]
    exact (fresh'.taken va pte entry).2
  constructor
  · intro k lt
    obtain ⟨pte, entry, free⟩ := pages k lt
    rcases Nat.lt_or_ge k ph.p_filesz with inside | behind
    · obtain ⟨b, file, there⟩ := filled k (Nat.zero_le _) inside
      refine ⟨b, ?_, fun _ => file, fun le => absurd inside (Nat.not_lt.2 le)⟩
      rw [userByte, same]
      exact there
    · refine ⟨0, ?_, fun inside => absurd inside (Nat.not_lt.2 behind), fun _ => rfl⟩
      rw [userByte, same, entry, Option.map_some]
      rcases writes _ (used _ pte entry) with quiet | ⟨x, pte', lt', -, entry', place⟩
      · rw [quiet, cleared, clear_free (by rw [pte.addr_page]; exact free)]
      · have again := fresh'.addr_inj entry entry' (by omega) (by omega) place
        omega
  · intro va pte there
    have old : pte.page ∉ s.kmem.freelist := (fresh.taken va pte there).2
    have entry := grows.kept va pte there
    rcases writes _ (used va pte entry) with quiet | ⟨x, pte', lt, -, entry', place⟩
    · rw [quiet, cleared]
      exact clear_sameAt fresh grows.suffix va pte there
    · obtain ⟨pte'', entry'', free⟩ := pages x (by omega)
      rw [entry'] at entry''
      cases entry''
      have page := congrArg (· / PAGESIZE) place
      simp only [Pte.addr_page] at page
      rw [page] at old
      exact absurd free old

/-- The loop over the headers: the segments it has come past are in memory. -/
theorem execHeaders_after (left : Nat) : ∀ {off memsize : Nat} {t : PageTable} {s : State}, t.Fresh s.kmem pool →
    After (execHeaders read left off t memsize) s fun r u => Keeps pool t s r.2 u ∧ (Short read → Outside pool s.mem u.mem) ∧
      (∀ bytes, Reads read bytes → r.1 ≠ none → (∀ i < left, (phdrAt bytes (off + Segment.sizeof * i)).p_type = PT_LOAD →
          (phdrAt bytes (off + Segment.sizeof * i)).Below) →
        SameAt t s.mem u.mem ∧ ∀ i < left, (phdrAt bytes (off + Segment.sizeof * i)).p_type = PT_LOAD →
          (phdrAt bytes (off + Segment.sizeof * i)).Loaded bytes r.2 u.mem) := by
  induction left with
  | zero =>
    intro off memsize t s fresh
    apply After.pure
    refine ⟨⟨fresh, PageTable.Grows.refl t s.kmem, rfl, rfl⟩, fun _ _ _ => rfl, fun _ _ _ _ => ⟨fun _ _ _ => rfl, ?_⟩⟩
    intro i lt
    exact absurd lt (Nat.not_lt_zero i)
  | succ left ih =>
    intro off memsize t s fresh
    unfold execHeaders
    cases header : readPhdr read off with
    | none =>
      apply After.pure
      refine ⟨⟨fresh, PageTable.Grows.refl t s.kmem, rfl, rfl⟩, fun _ _ _ => rfl, ?_⟩
      intro _ _ never
      exact absurd rfl never
    | some ph =>
    have next : ∀ {bytes}, Reads read bytes → (off + Segment.sizeof) % U64 = off + Segment.sizeof := by
      intro bytes reads
      obtain ⟨small, -⟩ := readPhdr_some reads header
      exact Nat.mod_eq_of_lt (small.trans (by decide))
    have place : ∀ i, off + Segment.sizeof + Segment.sizeof * i = off + Segment.sizeof * (i + 1) := by
      intro i
      rw [Nat.mul_succ]
      omega
    dsimp only
    split
    case isTrue other =>
      refine (ih fresh).mono ?_
      rintro r u ⟨keeps, outside, rest⟩
      refine ⟨keeps, outside, ?_⟩
      intro bytes reads loaded below
      obtain ⟨-, rfl⟩ := readPhdr_some reads header
      rw [next reads] at rest
      simp only [place] at rest
      obtain ⟨same, segments⟩ := rest bytes reads loaded fun i lt => below (i + 1) (by omega)
      refine ⟨same, ?_⟩
      intro i lt load
      cases i with
      | zero => exact absurd load other
      | succ i => exact segments i (by omega) load
    case isFalse load =>
    refine (onPages_after (allocUserspace_fresh ph.p_memsz fresh)).bind ?_
    rintro ⟨sz, t'⟩ u ⟨⟨fresh', grows, pages⟩, cleared, proc, ttbr0⟩
    have keeps : Keeps pool t s t' u := ⟨fresh', grows, proc, ttbr0⟩
    have outside : Outside pool s.mem u.mem := by
      rw [cleared]
      exact clear_outside fresh.free grows.suffix
    dsimp only
    split
    case isTrue =>
      apply After.pure
      refine ⟨keeps, fun _ => outside, ?_⟩
      intro _ _ never
      exact absurd rfl never
    case isFalse allocated =>
    refine (loadPrg_after fresh').bind ?_
    rintro ⟨r, t''⟩ v ⟨keeps', same, writes, filled⟩
    have outside' : Short read → Outside pool s.mem v.mem := fun short => outside.trans ((writes short).outside fresh')
    dsimp only
    split
    case isTrue =>
      apply After.pure
      refine ⟨keeps.trans keeps', outside', ?_⟩
      intro _ _ never
      exact absurd rfl never
    case isFalse done =>
    refine (ih keeps'.fresh).mono ?_
    rintro e w ⟨keeps'', outside'', rest⟩
    refine ⟨(keeps.trans keeps').trans keeps'', fun short => (outside' short).trans (outside'' short), ?_⟩
    intro bytes reads loaded below
    obtain ⟨-, rfl⟩ := readPhdr_some reads header
    have here := below 0 (Nat.zero_lt_succ _) (not_not.1 load)
    rw [Nat.mul_zero, Nat.add_zero] at here
    have top : USTACKBOTTOM < 2 ^ 39 := by decide
    obtain ⟨low, short⟩ := here
    have from_file : (phdrAt bytes off).p_offset < U64 := leField_lt ..
    obtain ⟨segment, kept⟩ := segment_loaded ⟨low, short⟩ fresh fresh' grows (pages (not_lt.1 allocated) (by omega)) cleared same
      (writes reads.short) (filled bytes reads (not_lt.1 done) (by omega) (by omega) from_file)
    rw [next reads] at rest
    simp only [place] at rest
    obtain ⟨kept', segments⟩ := rest bytes reads loaded fun i lt => below (i + 1) (by omega)
    constructor
    · intro va pte there
      rw [kept' va pte (keeps'.grows.kept va pte (grows.kept va pte there)), kept va pte there]
    · intro i lt load
      cases i with
      | zero => exact segment.keep keeps''.grows.kept kept'
      | succ i => exact segments i (by omega) load

end Headers

end Aarch64Os.Kernel.Exec
