import Aarch64Os.Kernel.ExecArgs

/-!
# What `exec` gives a process (`kernel/proc.c`)

A process that `exec` has started finds its segments in memory, and its arguments on the stack.
What is freed behind the last `goto fail` are the pages of the old address space, of which the new
one has none. Up to there the old one is as it was.
-/

namespace Aarch64Os.Kernel.Exec
set_option autoImplicit false
open Base

/-- The free pages are in RAM, on the list once, and the calling process uses none of them. -/
structure Ready (s : State) : Prop where
  ram : s.kmem.InRam
  nodup : s.kmem.freelist.Nodup
  apart : ∀ page ∈ s.kmem.freelist, ¬ s.proc.pgt.Uses page

/-- The pages that were free. -/
def Pool (s : State) (page : PageNo) : Prop := page ∈ s.kmem.freelist

/-- The segments of the file that are loaded. -/
def loadSegments (bytes : List Byte) : List Segment :=
  let eh := Ehdr.decode (bytes.take Ehdr.sizeof)
  ((List.range eh.e_phnum).map fun i => phdrAt bytes (eh.e_phoff + Segment.sizeof * i)).filter fun ph => ph.p_type = PT_LOAD

/-- The user finds this run of bytes at an address. -/
def UserHolds (t : PageTable) (mem : ByteMem) (va : Nat) (bytes : List Byte) : Prop :=
  ∀ k (lt : k < bytes.length), userByte t mem (va + k) = some bytes[k]

/-- What a process that `exec` has started with these arguments finds: `sp` and `x1` at a null-terminated
array of pointers, and behind them its strings with their NULs, below each other from the top. -/
structure StackRight (argv : List CStr) (r : Int) (u : State) : Prop where
  few : argv.length ≤ 8
  count : r = argv.length
  sp : u.proc.tf.sp = u.proc.tf.x1
  aligned : u.proc.tf.x1 % 16 = 0
  inside : USTACKBOTTOM ≤ u.proc.tf.x1 ∧ u.proc.tf.x1 < USTACKTOP
  args : ∃ ptrs : List Nat, ptrs.length = argv.length ∧
    UserHolds u.proc.pgt u.mem u.proc.tf.x1 ((ptrs ++ [0]).flatMap (leBytes 8)) ∧
    (∀ x ∈ argv.zip ptrs, UserHolds u.proc.pgt u.mem x.2 (x.1.1 ++ [0]) ∧ USTACKBOTTOM ≤ x.2 ∧
      u.proc.tf.x1 + 8 * (argv.length + 1) ≤ x.2 ∧ x.2 + x.1.1.length + 1 ≤ USTACKTOP) ∧
    (argv.zip ptrs).Pairwise fun x y => y.2 + y.1.1.length + 1 ≤ x.2

/-- A table with its pages, and what is on its stack at `sp`, is the image of a file with its arguments. -/
structure Prepared (read : Reader) (argv : List CStr) (t : PageTable) (m : ByteMem) (argc sp : Nat) : Prop where
  argc : argc = argv.length
  stack : ∃ pte ptrs o, t.pte USTACKBOTTOM = some pte ∧ sp = USTACKBOTTOM + o ∧ Laid m pte.page argv ptrs o
  segments : ∀ bytes, Reads read bytes → (∀ ph ∈ loadSegments bytes, ph.Below) → ∀ ph ∈ loadSegments bytes, ph.Loaded bytes t m

section Build
variable {pool : PageNo → Prop} {read : Reader} {bytes : List Byte} {argv : List CStr} {t : PageTable} {m m' : ByteMem} {s : State}
  {eh : Ehdr} {pte : Pte} {ptrs : List Nat} {page o argc sp : Nat}

theorem mem_loadSegments {ph : Segment} : ph ∈ loadSegments bytes ↔ ∃ i < (Ehdr.decode (bytes.take Ehdr.sizeof)).e_phnum,
    phdrAt bytes ((Ehdr.decode (bytes.take Ehdr.sizeof)).e_phoff + Segment.sizeof * i) = ph ∧ ph.p_type = PT_LOAD := by
  simp only [loadSegments, List.mem_filter, List.mem_map, List.mem_range, decide_eq_true_eq]
  constructor
  · rintro ⟨⟨i, lt, rfl⟩, load⟩
    exact ⟨i, lt, rfl, load⟩
  · rintro ⟨i, lt, rfl, load⟩
    exact ⟨⟨i, lt, rfl⟩, load⟩

/-- The header that has been read is that of the file. -/
theorem readEhdr_some (reads : Reads read bytes) (header : readEhdr read = some eh) : eh = Ehdr.decode (bytes.take Ehdr.sizeof) := by
  unfold readEhdr at header
  cases chunk : read 0 Ehdr.sizeof with
  | mk n buf =>
    rw [chunk] at header
    dsimp only at header
    split at header
    case isTrue => cases header
    case isFalse all =>
    split at header
    case isTrue => cases header
    case isFalse =>
    split at header
    case isTrue => cases header
    case isFalse =>
      cases header
      obtain ⟨-, content⟩ := reads.whole 0 Ehdr.sizeof (by rw [chunk]; exact not_not.1 all)
      rw [chunk] at content
      dsimp only at content
      rw [content, List.drop_zero]

/-- The stack page, at its user and its physical addresses. -/
theorem stack_addr (there : t.pte USTACKBOTTOM = some pte) {d : Nat} (inside : d < PAGESIZE) :
    t.pte (USTACKBOTTOM + d) = some pte ∧ pte.addr (USTACKBOTTOM + d) = pte.page * PAGESIZE + d := by
  have bottom : USTACKBOTTOM = 0x7fffffe000 := by decide
  constructor
  · rw [← there]
    apply t.pte_vpn
    rw [bottom]
    simp only [vpn, PAGESIZE] at *
    omega
  · rw [Pte.addr, bottom]
    simp only [PAGESIZE] at *
    omega

/-- What is in the stack page is what the user finds on the stack. -/
theorem userHolds_stack (there : t.pte USTACKBOTTOM = some pte) (holds : m.Holds (pte.page * PAGESIZE + o) bytes)
    (inside : o + bytes.length ≤ PAGESIZE) : UserHolds t m (USTACKBOTTOM + o) bytes := by
  intro k lt
  rw [Nat.add_assoc]
  obtain ⟨entry, place⟩ := stack_addr there (show o + k < PAGESIZE by omega)
  rw [userByte, entry, Option.map_some, place, ← Nat.add_assoc, holds k lt]

/-- Only the bytes of the stack page matter. -/
theorem Laid.congr (h : Laid m page argv ptrs o) (same : ∀ d < PAGESIZE, m' (page * PAGESIZE + d) = m (page * PAGESIZE + d)) :
    Laid m' page argv ptrs o := by
  have move : ∀ {d : Nat} {bytes : List Byte}, m.Holds (page * PAGESIZE + d) bytes → d + bytes.length ≤ PAGESIZE →
      m'.Holds (page * PAGESIZE + d) bytes := by
    intro d bytes holds inside k lt
    rw [Nat.add_assoc, same (d + k) (by omega), ← Nat.add_assoc]
    exact holds k lt
  constructor
  · exact h.few
  · exact h.length
  · exact h.aligned
  · exact h.inside
  · apply move h.pointers
    rw [pointers_length, List.length_append, h.length, List.length_singleton]
    exact h.inside
  · intro x mem
    obtain ⟨least, most, holds⟩ := h.strings x mem
    refine ⟨least, most, move holds ?_⟩
    have top : USTACKTOP = USTACKBOTTOM + PAGESIZE := rfl
    rw [List.length_append, List.length_singleton]
    omega
  · exact h.below

/-- An image stays one when the bytes at its addresses do. -/
theorem Prepared.keep (h : Prepared read argv t m argc sp) (same : SameAt t m m') : Prepared read argv t m' argc sp where
  argc := h.argc
  stack := by
    obtain ⟨pte, ptrs, o, there, place, laid⟩ := h.stack
    refine ⟨pte, ptrs, o, there, place, laid.congr ?_⟩
    intro d lt
    obtain ⟨entry, addr⟩ := stack_addr there lt
    rw [← addr]
    exact same _ pte entry
  segments bytes reads below ph mem := (h.segments bytes reads below ph mem).keep (fun _ _ => id) same

/-- The pages of the segments and the stack. -/
theorem execMap_after (fresh : PageTable.Fresh (Table.empty page) s.kmem pool) (header : readEhdr read = some eh) :
    After (execMap read eh page) s fun r u => Keeps pool (Table.empty page) s r.2 u ∧ (Short read → Outside pool s.mem u.mem) ∧
      ∀ memsize stack, r.1 = some (memsize, stack) → u.kmem.held = false ∧ r.2.pte USTACKBOTTOM = some stack ∧
        (∀ d < PAGESIZE, u.mem (stack.page * PAGESIZE + d) = 0) ∧
        ∀ bytes m, Reads read bytes → (∀ ph ∈ loadSegments bytes, ph.Below) → OnlyPage stack.page u.mem m →
          ∀ ph ∈ loadSegments bytes, ph.Loaded bytes r.2 m := by
  unfold execMap
  refine (execHeaders_after eh.e_phnum fresh).bind ?_
  rintro ⟨loaded, t⟩ u ⟨keeps, outside, segments⟩
  cases loaded with
  | none =>
    apply After.pure
    refine ⟨keeps, outside, ?_⟩
    intro _ _ never
    cases never
  | some memsize =>
  refine (onPages_after ((mapUstack_fresh keeps.fresh).and (mapUstack_lock t u.kmem))).bind ?_
  rintro ⟨mapped, t'⟩ v ⟨⟨⟨fresh', grows, there⟩, lock⟩, cleared, proc, ttbr0⟩
  have keeps' : Keeps pool t u t' v := ⟨fresh', grows, proc, ttbr0⟩
  have outside' : Outside pool u.mem v.mem := by
    rw [cleared]
    exact clear_outside keeps.fresh.free grows.suffix
  dsimp only
  cases mapped with
  | false => exact After.throw _
  | true =>
  obtain ⟨stack, entry, free⟩ := there rfl
  simp only [if_true, entry]
  apply After.pure
  refine ⟨keeps.trans keeps', fun short => (outside short).trans outside', ?_⟩
  intro _ _ same
  cases same
  have zero : ∀ d < PAGESIZE, v.mem (stack.page * PAGESIZE + d) = 0 := by
    intro d lt
    rw [cleared]
    apply clear_free
    rw [Nat.mul_comm, Nat.mul_add_div (by decide), Nat.div_eq_of_lt lt]
    exact free
  refine ⟨lock, entry, zero, ?_⟩
  intro bytes m reads below only ph mem
  obtain rfl := readEhdr_some reads header
  obtain ⟨-, each⟩ := segments bytes reads (Option.some_ne_none _) fun i lt load => below _ (mem_loadSegments.2 ⟨i, lt, rfl, load⟩)
  obtain ⟨i, lt, rfl, load⟩ := mem_loadSegments.1 mem
  apply (each i lt load).keep grows.kept
  intro va pte there
  have used : pte.page ∉ u.kmem.freelist := (keeps.fresh.taken va pte there).2
  rw [only]
  · rw [cleared]
    exact clear_sameAt keeps.fresh grows.suffix va pte there
  · rw [pte.addr_page]
    intro same
    rw [same] at used
    exact used free

/-- A table without entries. -/
theorem fresh_empty {k : Kallocator} (ram : ∀ page, pool page → Kernel.InRam page) (nodup : k.freelist.Nodup)
    (free : ∀ page ∈ k.freelist, pool page) : PageTable.Fresh (Table.empty page) k pool := by
  have clear : ∀ va pte, ¬ PageTable.pte (Table.empty page) va = some pte := by
    intro va pte there
    cases there
  constructor
  · exact ram
  · exact nodup
  · exact free
  · exact fun va pte there => absurd there (clear va pte)
  · exact fun va _ pte _ there => absurd there (clear va pte)

/-- `exec` up to its last `goto fail`. -/
theorem execBuild_after (ready : Ready s) (file : Option Reader) (args : Option (List CStr)) :
    After (execBuild file args) s fun r u => u.proc = s.proc ∧ u.ttbr0 = s.ttbr0 ∧
      ((∀ read, file = some read → Short read) → Outside (Pool s) s.mem u.mem) ∧
      ∀ new, r = .ok new → new.pgt.Fresh u.kmem (Pool s) ∧ Fits (args.getD []) ∧
        ∃ read, file = some read ∧ Prepared read (args.getD []) new.pgt u.mem new.argc new.sp := by
  have nothing : ∀ {r : Except (Option PageNo) Built} {u : State} {name : Option PageNo}, r = .error name → ∀ new, r = .ok new →
      new.pgt.Fresh u.kmem (Pool s) ∧ Fits (args.getD []) ∧ ∃ read, file = some read ∧ Prepared read (args.getD []) new.pgt u.mem new.argc new.sp := by
    rintro _ _ _ rfl _ never
    cases never
  unfold execBuild
  cases file with
  | none => exact After.pure ⟨rfl, rfl, fun _ _ _ => rfl, nothing rfl⟩
  | some read =>
  dsimp only
  cases header : readEhdr read with
  | none => exact After.pure ⟨rfl, rfl, fun _ _ _ => rfl, nothing rfl⟩
  | some eh =>
  refine (onPages_after (kalloc_suffix s.kmem)).bind ?_
  rintro page u ⟨suffix, cleared, proc, ttbr0⟩
  have outside : Outside (Pool s) s.mem u.mem := by
    rw [cleared]
    exact clear_outside (fun _ => id) suffix
  cases page with
  | none => exact After.pure ⟨proc, ttbr0, fun _ => outside, nothing rfl⟩
  | some page =>
  have fresh : PageTable.Fresh (Table.empty page) u.kmem (Pool s) :=
    fresh_empty ready.ram (ready.nodup.sublist suffix.sublist) fun _ mem => suffix.subset mem
  refine (execMap_after fresh header).bind ?_
  rintro ⟨mapped, t⟩ v ⟨keeps, outside', rest⟩
  have outside : (∀ read', some read = some read' → Short read') → Outside (Pool s) s.mem v.mem :=
    fun short => outside.trans (outside' (short read rfl))
  cases mapped with
  | none => exact After.pure ⟨keeps.proc.trans proc, keeps.ttbr0.trans ttbr0, outside, nothing rfl⟩
  | some mapped =>
  obtain ⟨memsize, stack⟩ := mapped
  obtain ⟨-, entry, zero, segments⟩ := rest memsize stack rfl
  obtain ⟨r, m, run, only, fits, laid⟩ := pushArgs_runs (args.getD []) zero
  have outside : (∀ read', some read = some read' → Short read') → Outside (Pool s) s.mem m := by
    intro short a out
    rw [only, outside short a out]
    intro same
    rw [same] at out
    exact out (keeps.fresh.taken _ _ entry).1
  refine After.step run ?_
  cases r with
  | none => exact After.pure ⟨keeps.proc.trans proc, keeps.ttbr0.trans ttbr0, outside, nothing rfl⟩
  | some r =>
  obtain ⟨argc, sp⟩ := r
  apply After.pure
  refine ⟨keeps.proc.trans proc, keeps.ttbr0.trans ttbr0, outside, ?_⟩
  intro new same
  cases same
  obtain ⟨count, ptrs, o, place, laid⟩ := laid argc sp rfl
  refine ⟨keeps.fresh, fits.1 (Option.some_ne_none _), read, rfl, count, ⟨stack, ptrs, o, entry, place, laid⟩, ?_⟩
  exact fun bytes reads below => segments bytes m reads below only

/-- `exec` behind it: what is freed is no page of the new table. -/
theorem execCommit_after {new : Built} (fresh : new.pgt.Fresh s.kmem pool) (apart : ∀ page, pool page → ¬ s.proc.pgt.Uses page) :
    After (execCommit new) s fun r u => r = new.argc ∧ SameAt new.pgt s.mem u.mem ∧ u.ttbr0 = new.pgt.name * PAGESIZE ∧
      u.proc = { pgt := new.pgt, size := new.memsize, tf := { x1 := new.sp, elr := new.entry, spsr := 0, sp := new.sp } } := by
  unfold execCommit
  refine After.step (get_runs s) ?_
  have within : s.proc.pgt.Within s.kmem fun page => page ∈ s.kmem.freelist ∨ s.proc.pgt.Uses page :=
    ⟨fun _ => .inl, fun _ => .inr⟩
  refine (onPages_after (freeUserspace_within s.proc.size within)).bind ?_
  rintro _ u ⟨freed, cleared, -, -⟩
  refine After.step (modify_runs ..) ?_
  apply After.pure
  refine ⟨rfl, ?_, rfl, rfl⟩
  intro va pte there
  obtain ⟨mine, used⟩ := fresh.taken va pte there
  show u.mem (pte.addr va) = s.mem (pte.addr va)
  rw [cleared]
  apply if_neg
  rw [pte.addr_page]
  rintro (free | free)
  · exact used free
  · rcases freed _ free with free | old
    · exact used free
    · exact apart _ mine old

/-- `exec` as a whole. -/
theorem exec_after (ready : Ready s) (file : Option Reader) (args : Option (List CStr)) :
    After (exec file args) s fun r u => (r = -1 ∧ u.proc = s.proc ∧ u.ttbr0 = s.ttbr0) ∨
      ∃ read argc, file = some read ∧ r = (argc : Nat) ∧ Fits (args.getD []) ∧ u.proc.tf.x1 = u.proc.tf.sp ∧
        Prepared read (args.getD []) u.proc.pgt u.mem argc u.proc.tf.sp := by
  unfold exec
  refine (execBuild_after ready file args).bind ?_
  rintro r u ⟨proc, ttbr0, -, built⟩
  cases r with
  | ok new =>
    obtain ⟨fresh, fits, read, found, prepared⟩ := built new rfl
    refine (execCommit_after fresh (by rw [proc]; exact ready.apart)).mono ?_
    rintro _ v ⟨rfl, same, -, image⟩
    refine .inr ⟨read, new.argc, found, rfl, fits, ?_⟩
    rw [image]
    exact ⟨rfl, prepared.keep same⟩
  | error name =>
  cases name with
  | none => exact After.pure (.inl ⟨rfl, proc, ttbr0⟩)
  | some name =>
    refine (onPages_after (kfree_after u.kmem name)).bind ?_
    rintro _ v ⟨-, -, proc', ttbr0'⟩
    exact After.pure (.inl ⟨rfl, proc'.trans proc, ttbr0'.trans ttbr0⟩)

/-- What is on the stack of an image is what the process finds. -/
theorem Prepared.stackRight {u : State} (h : Prepared read argv u.proc.pgt u.mem argc u.proc.tf.sp) (same : u.proc.tf.x1 = u.proc.tf.sp) :
    StackRight argv argc u := by
  obtain ⟨pte, ptrs, o, there, place, laid⟩ := h.stack
  have bottom : USTACKBOTTOM % 16 = 0 := by decide
  have top : USTACKTOP = USTACKBOTTOM + PAGESIZE := rfl
  have low := laid.inside
  have aligned := laid.aligned
  have size : ((ptrs ++ [0]).flatMap (leBytes 8)).length = 8 * (argv.length + 1) := by
    rw [pointers_length, List.length_append, laid.length, List.length_singleton]
  rw [← same] at place
  constructor
  · exact laid.few
  · exact congrArg Nat.cast h.argc
  · exact same.symm
  · omega
  · omega
  · refine ⟨ptrs, laid.length, ?_, ?_, laid.below⟩
    · rw [place]
      exact userHolds_stack there laid.pointers (by omega)
    · intro x mem
      obtain ⟨least, most, holds⟩ := laid.strings x mem
      refine ⟨?_, by omega, by omega, most⟩
      have string := userHolds_stack there holds (by rw [List.length_append, List.length_singleton]; omega)
      rwa [Nat.add_sub_cancel' (by omega)] at string

/-- A file that `exec` can load without arguments, and arguments that do not fit. -/
theorem exec_refuses {file : Option Reader} {args : Option (List CStr)} (ready : Ready s)
    (loads : ∃ new u, execBuild file none s = .ok (.ok new, u)) (long : ¬ Fits (args.getD [])) : ∃ u, exec file args s = .ok (-1, u) := by
  obtain ⟨new, last, run⟩ := loads
  unfold execBuild at run
  cases file with
  | none => cases run
  | some read =>
  dsimp only at run
  cases header : readEhdr read with
  | none =>
    rw [header] at run
    cases run
  | some eh =>
  rw [header] at run
  obtain ⟨page, u, taken, run⟩ := run_bind.1 run
  cases page with
  | none => cases run
  | some page =>
  obtain ⟨⟨mapped, t⟩, v, mapping, run⟩ := run_bind.1 run
  cases mapped with
  | none => cases run
  | some mapped =>
  obtain ⟨memsize, stack⟩ := mapped
  obtain ⟨suffix, -⟩ := onPages_after (kalloc_suffix s.kmem) _ _ taken
  have fresh : PageTable.Fresh (Table.empty page) u.kmem (Pool s) :=
    fresh_empty ready.ram (ready.nodup.sublist suffix.sublist) fun _ mem => suffix.subset mem
  obtain ⟨-, -, rest⟩ := execMap_after fresh header _ _ mapping
  obtain ⟨free, -, zero, -⟩ := rest memsize stack rfl
  obtain ⟨r, m, pushed, -, fits, -⟩ := pushArgs_runs (args.getD []) zero
  obtain rfl : r = none := not_not.1 fun some => long (fits.1 some)
  have build : execBuild (some read) args s = .ok (.error (some t.name), { v with mem := m }) := by
    unfold execBuild
    dsimp only
    rw [header]
    dsimp only
    rw [bind_runs taken]
    dsimp only
    rw [bind_runs mapping]
    dsimp only
    rw [bind_runs pushed]
    rfl
  unfold exec
  rw [bind_runs build]
  dsimp only
  unfold onPages
  rw [bind_runs (by rw [kfree_free free]; rfl)]
  exact ⟨_, rfl⟩

/-- A process that `exec` has started finds its arguments on the stack, and arguments that do not
fit make it fail. -/
theorem exec_lays_out_stack (ready : Ready s) (file : Option Reader) (args : Option (List CStr)) :
    (∀ r u, exec file args s = .ok (r, u) → 0 ≤ r → StackRight (args.getD []) r u) ∧
      (¬ Fits (args.getD []) → (∀ r u, exec file args s = .ok (r, u) → r = -1) ∧
        ((∃ new u, execBuild file none s = .ok (.ok new, u)) → ∃ u, exec file args s = .ok (-1, u))) := by
  constructor
  · intro r u run nonneg
    rcases exec_after ready file args r u run with ⟨rfl, -, -⟩ | ⟨read, argc, -, rfl, -, same, prepared⟩
    · exact absurd nonneg (by decide)
    · exact prepared.stackRight same
  · intro long
    refine ⟨?_, fun loads => exec_refuses ready loads long⟩
    intro r u run
    rcases exec_after ready file args r u run with ⟨fails, -, -⟩ | ⟨-, -, -, -, fits, -, -⟩
    · exact fails
    · exact absurd fits long

/-- A process that `exec` has started finds the segments of the file in memory, and the old address
space is as it was up to the last `goto fail`. -/
theorem exec_loads_segments (reads : Reads read bytes) (below : ∀ ph ∈ loadSegments bytes, ph.Below) (ready : Ready s)
    (args : Option (List CStr)) :
    (∀ r u, exec (some read) args s = .ok (r, u) → 0 ≤ r → ∀ ph ∈ loadSegments bytes, ph.Loaded bytes u.proc.pgt u.mem) ∧
      ∀ r u, execBuild (some read) args s = .ok (r, u) → u.proc = s.proc ∧ u.ttbr0 = s.ttbr0 ∧
        ∀ va, userByte s.proc.pgt u.mem va = userByte s.proc.pgt s.mem va := by
  constructor
  · intro r u run nonneg
    rcases exec_after ready (some read) args r u run with ⟨rfl, -, -⟩ | ⟨read', argc, same, -, -, -, prepared⟩
    · exact absurd nonneg (by decide)
    · cases same
      exact prepared.segments bytes reads below
  · intro r u run
    obtain ⟨proc, ttbr0, outside, -⟩ := execBuild_after ready (some read) args r u run
    refine ⟨proc, ttbr0, ?_⟩
    intro va
    unfold userByte
    cases there : s.proc.pgt.pte va with
    | none => rfl
    | some pte =>
      rw [Option.map_some, Option.map_some]
      apply congrArg some
      apply outside
      · intro read' same
        cases same
        exact reads.short
      · rw [pte.addr_page]
        exact fun free => ready.apart _ free (PageTable.uses_pte there)

end Build

/-- `read_inode` of a file with these bytes. -/
def readerOf (bytes : List Byte) : Reader := fun off size =>
  if bytes.length < off then (-1, []) else (((bytes.drop off).take size).length, (bytes.drop off).take size)

theorem readerOf_reads {bytes : List Byte} (small : bytes.length < 2 ^ 32) : Reads (readerOf bytes) bytes where
  small := small
  short off size := by
    unfold readerOf
    split
    · exact Nat.zero_le _
    · exact List.length_take_le ..
  whole off size all := by
    unfold readerOf at all ⊢
    split at all
    case isTrue => omega
    case isFalse inside =>
      rw [if_neg inside]
      dsimp only at all
      rw [List.length_take, List.length_drop] at all
      exact ⟨by omega, rfl⟩

/-- An executable with these program headers behind its own. -/
def elfOf (phnum : Nat) (phdrs : List Byte) : List Byte :=
  [0x7f, 0x45, 0x4c, 0x46] ++ List.replicate 12 0 ++ leBytes 2 ET_EXEC ++ List.replicate 6 0 ++ leBytes 8 0x1000 ++ leBytes 8 Ehdr.sizeof ++
    List.replicate 16 0 ++ leBytes 2 phnum ++ List.replicate 6 0 ++ phdrs

/-- One segment of two pages, of which the file has three bytes. -/
def smallElf : List Byte :=
  elfOf 1 (leBytes 4 PT_LOAD ++ leBytes 4 0 ++ leBytes 8 120 ++ leBytes 8 0x1000 ++ leBytes 8 0 ++ leBytes 8 3 ++ leBytes 8 5000 ++
    leBytes 8 0 ++ [7, 8, 9])

/-- A table of a stack page only. -/
def stackTable : PageTable :=
  Table.put (Table.empty 300000) (PIDX 1 USTACKBOTTOM) (some (Table.put (Table.empty 300001) (PIDX 2 USTACKBOTTOM)
    (some (Table.put (Table.empty 300002) (PIDX 3 USTACKBOTTOM) (some { page := 300003, attr := 0 })))))

/-- A process of a stack page only, and twelve free pages. -/
def smallProcess : State where
  kmem := { freelist := List.range' 270000 12, held := false }
  mem := fun _ => 0
  proc := { pgt := stackTable, size := 0, tf := { x1 := 0, elr := 0, spsr := 0, sp := 0 } }
  ttbr0 := 300000 * PAGESIZE

theorem smallProcess_ready : Ready smallProcess where
  ram := by
    intro page mem
    obtain ⟨least, most⟩ := List.mem_range'_1.1 mem
    simp only [InRam, PAGESIZE]
    omega
  nodup := List.nodup_range' ..
  apart := by
    intro page mem mine
    obtain ⟨least, most⟩ := List.mem_range'_1.1 mem
    rcases Table.owns_put mine with root | mine
    · obtain rfl := Table.owns_empty.1 root
      omega
    rcases Table.owns_put mine with second | mine
    · obtain rfl := Table.owns_empty.1 second
      omega
    rw [Option.elim_some] at mine
    rcases Table.owns_put mine with third | stack
    · obtain rfl := Table.owns_empty.1 third
      omega
    · obtain rfl : page = 300003 := stack
      omega

/-- Two strings, of which the second is empty; and nine, which are too many. -/
def twoStrings : List CStr := [⟨[65, 66], by decide⟩, ⟨[], by decide⟩]
def nineStrings : List CStr := List.replicate 9 ⟨[], by decide⟩

/-- The process starts the file with two strings, and cannot with nine. -/
theorem exec_lays_out_stack_small : (∃ r u, exec (some (readerOf smallElf)) (some twoStrings) smallProcess = .ok (r, u) ∧ r = 2 ∧
    StackRight twoStrings r u) ∧ ∃ u, exec (some (readerOf smallElf)) (some nineStrings) smallProcess = .ok (-1, u) := by
  constructor
  · have ran : ((exec (some (readerOf smallElf)) (some twoStrings) smallProcess).toOption.any fun r => r.1 = 2) = true := by decide +kernel
    obtain ⟨r, u, run, two⟩ := ok_of_any ran
    have two : r = 2 := of_decide_eq_true two
    have nonneg : 0 ≤ r := by omega
    exact ⟨r, u, run, two, (exec_lays_out_stack smallProcess_ready _ _).1 r u run nonneg⟩
  · have ran : ((execBuild (some (readerOf smallElf)) none smallProcess).toOption.any fun r => r.1.isOk) = true := by decide +kernel
    obtain ⟨r, u, run, built⟩ := ok_of_any ran
    cases r with
    | error name => cases built
    | ok new =>
      exact ((exec_lays_out_stack smallProcess_ready (some (readerOf smallElf)) (some nineStrings)).2 (by decide)).2 ⟨new, u, run⟩

/-- It finds the segment of the file in memory. -/
theorem exec_loads_segments_small : ∃ r u, exec (some (readerOf smallElf)) (some twoStrings) smallProcess = .ok (r, u) ∧
    (loadSegments smallElf).length = 1 ∧ ∀ ph ∈ loadSegments smallElf, ph.Loaded smallElf u.proc.pgt u.mem := by
  have ran : ((exec (some (readerOf smallElf)) (some twoStrings) smallProcess).toOption.any fun r => 0 ≤ r.1) = true := by decide +kernel
  obtain ⟨r, u, run, nonneg⟩ := ok_of_any ran
  have below : ∀ ph ∈ loadSegments smallElf, ph.Below := by decide +kernel
  refine ⟨r, u, run, by decide +kernel, ?_⟩
  exact (exec_loads_segments (readerOf_reads (by decide +kernel)) below smallProcess_ready (some twoStrings)).1 r u run (of_decide_eq_true nonneg)

end Aarch64Os.Kernel.Exec
