import Aarch64Os.Base.Counting
import Aarch64Os.Kernel.Mm.Threads

/-!
# Where the pages go (`kernel/proc.c`)

The pages that are free, and those of the processes that a history creates, with their stacks and
their tables. No call changes their number, as long as no allocation fails, but a `clone`, and an
`exec` of a file that it begins to load and then does not.
-/

namespace Aarch64Os.Kernel.Thread
set_option autoImplicit false
open Base

/-- A process with the table behind its pointer. -/
def Threads.space (s : Threads) (p : ProcId) : UserProc where
  state := (s.procs p).state
  pid := (s.procs p).pid
  kstack := (s.procs p).kstack
  pgt := (s.procs p).pgt.bind s.tables
  size := (s.procs p).size

/-- Image and stack of a process are mapped, as far as its size says. -/
def Covers (q : UserProc) : Prop := q.size < 2 ^ 39 ∧ ∃ pgt, q.pgt = some pgt ∧
  (∀ j, j * PAGESIZE < q.size → (pgt.pte ((1 + j) * PAGESIZE)).isSome) ∧ (pgt.pte USTACKBOTTOM).isSome

/-- A state that a history starts in. -/
structure Start (s : Threads) : Prop where
  held : s.kmem.held = false
  few : s.kmem.free ≤ bootPages
  unused : ∀ p, (s.procs p).state = .UNUSED → s.procs p = ThreadProc.zero
  known : ∀ p, ∀ id ∈ (s.procs p).pgt, id < s.next
  covers : ∀ p, (s.procs p).state = .RUNNABLE → Covers (s.space p)

/-- A slot for processes that are created behind `s₀`. -/
abbrev Created (s₀ : Threads) (p : ProcId) : Prop := (s₀.procs p).state = .UNUSED

/-- The pages of the processes that have been created. -/
def Threads.createdPages (s₀ s : Threads) : Nat := ∑ p, if Created s₀ p then (s.space p).pages else 0

/-- The pages of the kernel are free, or a created process has them. -/
structure Counted (s₀ s : Threads) : Prop where
  total : s.kmem.free + Threads.createdPages s₀ s = s₀.kmem.free
  old : ∀ p, ¬ Created s₀ p → s.procs p = s₀.procs p
  unused : ∀ p, (s.procs p).state = .UNUSED → s.procs p = ThreadProc.zero
  known : ∀ p, ∀ id ∈ (s.procs p).pgt, id < s.next
  apart : ∀ p q, Created s₀ p → ∀ id ∈ (s.procs p).pgt, id ∈ (s.procs q).pgt → q = p
  covers : ∀ p, (s.procs p).state = .RUNNABLE → Covers (s.space p)
  alive : ∀ p, Created s₀ p → (s.procs p).state = .RUNNABLE → (s.procs p).th = false ∧ (s.space p).Right
  dead : ∀ p, Created s₀ p → (s.procs p).state = .ZOMBIE → (s.space p).pgt = none

/-- What is behind a pointer has not changed for those who read it. -/
def SameTable (t t' : Option PageTable) : Prop :=
  (t = none → t' = none) ∧ t'.elim 0 PageTable.pages = t.elim 0 PageTable.pages ∧ ∀ pgt ∈ t, ∃ pgt' ∈ t', ∀ va, pgt'.pte va = pgt.pte va

theorem SameTable.refl (t : Option PageTable) : SameTable t t := ⟨id, rfl, fun pgt has => ⟨pgt, has, fun _ => rfl⟩⟩

/-- A process that maps what its size says. -/
theorem Right.covers {q : UserProc} (right : q.Right) (few : q.pages ≤ bootPages) (small : q.size < 2 ^ 39) : Covers q := by
  obtain ⟨pgt, has, image, long, -⟩ := right
  have top : STACKPAGE < 2 ^ 27 := by decide
  have part : pgt.pages ≤ bootPages := by
    simp only [UserProc.pages, has, Option.elim_some] at few
    omega
  have le := le_PAGEROUNDUP small
  rw [← PAGEROUNDUP_pages] at le
  refine ⟨small, pgt, has, fun j lt => ?_, ?_⟩
  · have page : j < PAGEROUNDUP q.size / PAGESIZE := Nat.lt_of_mul_lt_mul_right (lt_of_lt_of_le lt le)
    unfold bootPages at part
    exact (image (1 + j) (by omega)).2 (.inl ⟨by omega, by omega⟩)
  · have place : USTACKBOTTOM = STACKPAGE * PAGESIZE := by decide
    rw [place]
    exact (image STACKPAGE top).2 (.inr rfl)

section Frame
variable {s₀ s t : Threads} {p : ProcId}

/-- A process whose table only others have changed. -/
theorem space_pages (slot : t.procs p = s.procs p) (same : ∀ id ∈ (s.procs p).pgt, SameTable (s.tables id) (t.tables id)) :
    (t.space p).pages = (s.space p).pages := by
  simp only [Threads.space, UserProc.pages, slot]
  cases has : (s.procs p).pgt with
  | none => rfl
  | some id => rw [Option.bind_some, Option.bind_some, (same id has).2.1]

theorem space_covers (slot : t.procs p = s.procs p) (same : ∀ id ∈ (s.procs p).pgt, SameTable (s.tables id) (t.tables id))
    (h : Covers (s.space p)) : Covers (t.space p) := by
  obtain ⟨small, pgt, has, image, stack⟩ := h
  obtain ⟨id, pointer, table⟩ := Option.bind_eq_some_iff.1 has
  obtain ⟨pgt', table', reads⟩ := (same id pointer).2.2 pgt table
  refine ⟨by simpa only [Threads.space, slot] using small, pgt', ?_, fun j lt => ?_, ?_⟩
  · show (t.procs p).pgt.bind t.tables = some pgt'
    rw [slot, pointer]
    exact table'
  · rw [reads]
    exact image j (by simpa only [Threads.space, slot] using lt)
  · rw [reads]
    exact stack

theorem space_right (slot : t.procs p = s.procs p) (same : ∀ id ∈ (s.procs p).pgt, SameTable (s.tables id) (t.tables id))
    (h : (s.space p).Right) : (t.space p).Right := by
  obtain ⟨pgt, has, image, long, small⟩ := h
  obtain ⟨id, pointer, table⟩ := Option.bind_eq_some_iff.1 has
  obtain ⟨-, pages, reads⟩ := same id pointer
  obtain ⟨pgt', table', reads⟩ := reads pgt table
  have size : (t.space p).size = (s.space p).size := by simp only [Threads.space, slot]
  have here : t.tables id = some pgt' := table'
  have long' : pgt'.pages = pgt.pages := by simpa only [table, here, Option.elim_some] using pages
  refine ⟨pgt', ?_, ?_, ?_, ?_⟩
  · show (t.procs p).pgt.bind t.tables = some pgt'
    rw [slot, pointer]
    exact table'
  · rw [size]
    exact image.congr reads
  · rw [size, long']
    exact long
  · rw [size]
    exact small

/-- The pages of one created process, and the free ones. -/
theorem Counted.few (start : Start s₀) (h : Counted s₀ s) (created : Created s₀ p) : s.kmem.free + (s.space p).pages ≤ bootPages := by
  have one : (if Created s₀ p then (s.space p).pages else 0) ≤ Threads.createdPages s₀ s :=
    Finset.single_le_sum (f := fun p => if Created s₀ p then (s.space p).pages else 0) (fun _ _ => Nat.zero_le _) (Finset.mem_univ p)
  rw [if_pos created] at one
  have total := h.total
  have few := start.few
  omega

/-- What a call may do: the slot of one created process changes, and its table; a table that is
new belongs to that process. -/
theorem Counted.put (start : Start s₀) (h : Counted s₀ s) (created : Created s₀ p) (slots : ∀ q, q ≠ p → t.procs q = s.procs q)
    (next : s.next ≤ t.next) (tables : ∀ id < s.next, id ∉ (s.procs p).pgt → SameTable (s.tables id) (t.tables id))
    (pages : t.kmem.free + (t.space p).pages = s.kmem.free + (s.space p).pages)
    (own : ∀ id ∈ (t.procs p).pgt, id ∈ (s.procs p).pgt ∨ s.next ≤ id ∧ id < t.next)
    (unused : (t.procs p).state = .UNUSED → t.procs p = ThreadProc.zero)
    (alive : (t.procs p).state = .RUNNABLE → (t.procs p).th = false ∧ (t.space p).Right ∧ (t.procs p).size < 2 ^ 39)
    (dead : (t.procs p).state = .ZOMBIE → (t.space p).pgt = none) : Counted s₀ t := by
  have same : ∀ q, q ≠ p → ∀ id ∈ (s.procs q).pgt, SameTable (s.tables id) (t.tables id) := fun q ne id has =>
    tables id (h.known q id has) fun mine => ne (h.apart p q created id mine has)
  have total : t.kmem.free + Threads.createdPages s₀ t = s₀.kmem.free := by
    have moved := sum_except (fun q => if Created s₀ q then (s.space q).pages else 0) (fun q => if Created s₀ q then (t.space q).pages else 0) p
      fun q ne => by rw [space_pages (slots q ne) (same q ne)]
    simp only [if_pos created] at moved
    have before := h.total
    unfold Threads.createdPages at before ⊢
    omega
  refine ⟨total, fun q other => ?_, fun q free => ?_, fun q id has => ?_, fun q r mine id has has' => ?_, fun q live => ?_, fun q mine live => ?_,
    fun q mine gone => ?_⟩
  · rw [slots q fun same => other (same ▸ created)]
    exact h.old q other
  · rcases eq_or_ne q p with rfl | ne
    · exact unused free
    · rw [slots q ne] at free ⊢
      exact h.unused q free
  · rcases eq_or_ne q p with rfl | ne
    · rcases own id has with before | ⟨-, new⟩
      · exact lt_of_lt_of_le (h.known q id before) next
      · exact new
    · rw [slots q ne] at has
      exact lt_of_lt_of_le (h.known q id has) next
  · rcases eq_or_ne q p with rfl | ne
    · rcases eq_or_ne r q with rfl | ne'
      · rfl
      · rw [slots r ne'] at has'
        rcases own id has with before | ⟨new, -⟩
        · exact h.apart q r mine id before has'
        · exact absurd (h.known r id has') (by omega)
    · rw [slots q ne] at has
      rcases eq_or_ne r p with rfl | ne'
      · rcases own id has' with before | ⟨new, -⟩
        · exact h.apart q r mine id has before
        · exact absurd (h.known q id has) (by omega)
      · rw [slots r ne'] at has'
        exact h.apart q r mine id has has'
  · rcases eq_or_ne q p with rfl | ne
    · obtain ⟨-, right, small⟩ := alive live
      have few := h.few start created
      exact Right.covers right (by omega) small
    · rw [slots q ne] at live
      exact space_covers (slots q ne) (same q ne) (h.covers q live)
  · rcases eq_or_ne q p with rfl | ne
    · obtain ⟨single, right, -⟩ := alive live
      exact ⟨single, right⟩
    · rw [slots q ne] at live ⊢
      obtain ⟨single, right⟩ := h.alive q mine live
      exact ⟨single, space_right (slots q ne) (same q ne) right⟩
  · rcases eq_or_ne q p with rfl | ne
    · exact dead gone
    · have slot := slots q ne
      rw [slot] at gone
      have none := h.dead q mine gone
      unfold Threads.space at none ⊢
      rw [slot]
      cases has : (s.procs q).pgt with
      | none => rfl
      | some id =>
        rw [has] at none
        exact (same q ne id has).1 none

/-- A free slot is one for a process to create. -/
theorem Counted.created (h : Counted s₀ s) (unused : (s.procs p).state = .UNUSED) : Created s₀ p := by
  by_contra other
  rw [h.old p other] at unused
  exact other unused

end Frame

section Calls
variable {s₀ s : Threads} {p : ProcId}

/-- `fork` gives the child two pages, and those that it copies. -/
theorem fork_counted (start : Start s₀) (h : Counted s₀ s) (live : (s.procs p).state = .RUNNABLE) :
    After (fork p) s fun _ t => t.kmem.held = false → Counted s₀ t := by
  have top : 2 ^ 16 + 1 ≤ STACKPAGE := by decide
  unfold fork
  refine (newproc_after s).bind ?_
  rintro _ t (⟨rfl, ⟨held, -⟩ | ⟨rfl, -⟩⟩ | ⟨new, stack, page, rfl, unused, taken, -, same⟩)
  · exact After.pure fun free => absurd held (by rw [free]; exact Bool.false_ne_true)
  · exact After.pure fun _ => h
  have created := h.created unused
  have zero := h.unused new unused
  have few := h.few start created
  unfold bootPages at few
  have ne : new ≠ p := by
    rintro rfl
    rw [unused] at live
    cases live
  obtain ⟨small, pgt, has, image, stacked⟩ := h.covers p live
  obtain ⟨old, pointer, table⟩ := Option.bind_eq_some_iff.1 has
  have low : old < s.next := h.known p old pointer
  have parent : t.procs p = s.procs p := by rw [same]; exact Function.update_of_ne ne.symm ..
  have oldTable : t.tables old = some pgt := by rw [same]; exact (Function.update_of_ne low.ne ..).trans table
  have child : t.procs new = (s.procs new).filled s.nextpid stack s.next := by rw [same]; exact Function.update_self ..
  have newTable : t.tables s.next = some (Table.empty page) := by rw [same]; exact Function.update_self ..
  have empty : PageTable.Maps (Table.empty page) fun _ => False := fun n _ => iff_of_false (by simp [PageTable.pte]) id
  have root : PageTable.pages (Table.empty page) = 1 := Table.weight_empty ..
  refine After.step (get_runs t) ?_
  refine After.step (tableOf_runs (parent ▸ pointer) oldTable) ?_
  refine After.step (tableOf_runs (child ▸ rfl) newTable) ?_
  rw [parent]
  refine (onKmem_after ((cpUserspace_ends t.kmem empty (by omega)).1.and (cpUserspace_old (by omega) image stacked))).bind ?_
  rintro ⟨r, newpgt, oldpgt⟩ u ⟨⟨⟨copied, reads, total, -⟩, kept, fails⟩, same'⟩
  rw [same']
  refine After.step (setTable_runs ..) (After.step (setTable_runs ..) ?_)
  split
  case isTrue failed =>
    have held := fails failed
    unfold freeproc
    rw [bind_assoc]
    refine After.step (get_runs _) ?_
    dsimp only
    rw [child]
    dsimp only [ThreadProc.filled]
    rw [bind_assoc]
    refine (onKmem_after (kfree_after _ _)).bind ?_
    rintro _ v ⟨⟨free, -⟩, -⟩
    rw [held] at free
    cases free
  case isFalse done =>
    obtain ⟨image', long'⟩ := copied done
    refine After.step (setProc_runs ..) (After.pure fun _ => ?_)
    have next : t.next = s.next + 1 := by rw [same]
    have others : ∀ q, q ≠ new → t.procs q = s.procs q := fun q ne => by rw [same]; exact Function.update_of_ne ne ..
    have rest : ∀ id < s.next, t.tables id = s.tables id := fun id lt => by rw [same]; exact Function.update_of_ne lt.ne ..
    refine h.put start created (fun q ne => ?_) (show s.next ≤ t.next by omega) (fun id lt _ => ?_) ?_ (fun id has => ?_) ?_ ?_ ?_
    · exact (Function.update_of_ne ne ..).trans (others q ne)
    · dsimp only
      rw [Function.update_of_ne lt.ne]
      rcases eq_or_ne id old with rfl | other
      · rw [Function.update_self, table]
        exact ⟨fun none => absurd none (Option.some_ne_none _), kept, fun pgt' mine => ⟨oldpgt, rfl, by cases mine; exact reads⟩⟩
      · rw [Function.update_of_ne other, rest id lt]
        exact SameTable.refl _
    · simp only [Threads.space, UserProc.pages, Function.update_self, child, ThreadProc.filled, zero, ThreadProc.zero, Option.bind_some,
        Option.bind_none, Option.elim_some, Option.elim_none] at *
      omega
    · simp only [Function.update_self, child, ThreadProc.filled, Option.mem_def, Option.some.injEq] at has
      exact .inr ⟨has.le, show id < t.next by omega⟩
    · simp only [Function.update_self]
      intro never
      cases never
    · simp only [Threads.space, Function.update_self, child, ThreadProc.filled, zero, ThreadProc.zero, Option.bind_some]
      exact fun _ => ⟨trivial, ⟨newpgt, rfl, image', long', by simp only [U64]; exact small.trans (by decide)⟩, small⟩
    · simp only [Function.update_self]
      intro never
      cases never

/-- The table of a created process. -/
theorem Counted.table (h : Counted s₀ s) (created : Created s₀ p) (live : (s.procs p).state = .RUNNABLE) : ∃ id pgt,
    (s.procs p).th = false ∧ (s.procs p).pgt = some id ∧ s.tables id = some pgt ∧ id < s.next ∧ pgt.Maps (Image (PAGEROUNDUP (s.procs p).size / PAGESIZE)) ∧
      PAGEROUNDUP (s.procs p).size / PAGESIZE ≤ pgt.pages ∧ (s.procs p).size < 2 ^ 39 ∧
      (s.space p).pages = ((s.procs p).kstack.elim 0 fun _ => 1) + pgt.pages := by
  obtain ⟨single, pgt, has, image, long, -⟩ := h.alive p created live
  obtain ⟨small, -⟩ := h.covers p live
  obtain ⟨id, pointer, table⟩ := Option.bind_eq_some_iff.1 has
  refine ⟨id, pgt, single, pointer, table, h.known p id pointer, image, long, small, ?_⟩
  rw [UserProc.pages, has, Option.elim_some]
  rfl

/-- `exec` of a file that it loads, or does not begin to load. -/
theorem exec_counted (start : Start s₀) (h : Counted s₀ s) (created : Created s₀ p) (live : (s.procs p).state = .RUNNABLE)
    {file : Option (List (Option Phdr))} {argv : List Nat} (base : ∀ phdrs ∈ file, AtBase phdrs)
    (loads : ∀ phdrs ∈ file, Loads phdrs argv ∨ Unread phdrs) (pool : s.kmem.InRam) :
    After (exec p file argv) s fun _ t => t.kmem.held = false → Counted s₀ t := by
  have top : 2 ^ 16 + 1 ≤ STACKPAGE := by decide
  obtain ⟨id, pgt, single, pointer, table, low, image, long, small, pages⟩ := h.table created live
  have few := h.few start created
  unfold bootPages at few
  have failed : ∀ k : Kallocator, k.free = s.kmem.free → Counted s₀ { s with kmem := k } := by
    intro k same
    refine h.put start created (fun _ _ => rfl) le_rfl (fun _ _ _ => SameTable.refl _) ?_ (fun _ has => .inl has) (h.unused p) (fun live => ?_)
      (h.dead p created)
    · exact congrArg (· + (s.space p).pages) same
    · exact ⟨single, (h.alive p created live).2, small⟩
  unfold exec
  refine After.step (get_runs s) (After.step (tableOf_runs pointer table) ?_)
  cases file with
  | none =>
    have nothing : After (execSpace pgt (s.procs p).size none argv) s.kmem fun e u => e.2 = none ∧ u = s.kmem := After.pure ⟨rfl, rfl⟩
    refine (onKmem_after nothing).bind ?_
    rintro ⟨r, new⟩ t ⟨⟨rfl, same⟩, keeps⟩
    rw [keeps]
    exact After.pure fun _ => failed _ (by rw [same])
  | some phdrs =>
  rcases loads phdrs rfl with loads | unread
  · have ends := (execSpace_exact (base phdrs rfl) loads pool (by omega) image (by omega)).and
      ((execSpace_small phdrs (s.procs p).size argv s.kmem).and (execSpace_ends base s.kmem argv (by omega) image (by omega)).1)
    refine (onKmem_after ends).bind ?_
    rintro ⟨r, new⟩ t ⟨⟨⟨rfl, held⟩ | ⟨pgt', memsize, rfl, exactly⟩, bound, maps, -⟩, keeps⟩
    · exact After.pure fun free => absurd held (by rw [free]; exact Bool.false_ne_true)
    · obtain ⟨image', long', small', -⟩ := maps pgt' memsize rfl
      have one := (base phdrs rfl).1
      have bound := bound pgt' memsize rfl
      rw [keeps]
      refine After.step (setTable_runs ..) (After.step (newTable_runs ..) (After.step (setProc_runs ..) (After.pure fun _ => ?_)))
      refine h.put start created (fun q ne => Function.update_of_ne ne ..) (Nat.le_succ _) (fun id' lt other => ?_) ?_ (fun id' has => ?_) ?_ ?_ ?_
      · rw [pointer] at other
        have ne : id' ≠ id := fun same => other (same ▸ rfl)
        dsimp only
        rw [Function.update_of_ne lt.ne, Function.update_of_ne ne]
        exact SameTable.refl _
      · rw [pages]
        simp only [Threads.space, UserProc.pages, Function.update_self, Option.bind_some, Option.elim_some]
        omega
      · simp only [Function.update_self, Option.mem_def, Option.some.injEq] at has
        exact .inr ⟨has.le, has ▸ Nat.lt_succ_self _⟩
      · simp only [Function.update_self, live]
        intro never
        cases never
      · simp only [Threads.space, Function.update_self, Option.bind_some]
        exact fun _ => ⟨single, ⟨pgt', rfl, image', long', small'⟩, by omega⟩
      · simp only [Function.update_self, live]
        intro never
        cases never
  · refine (onKmem_after (execSpace_unread unread (s.procs p).size argv s.kmem)).bind ?_
    rintro ⟨r, new⟩ t ⟨⟨rfl, held | same⟩, keeps⟩
    · exact After.pure fun free => absurd held (by rw [free]; exact Bool.false_ne_true)
    · rw [keeps]
      exact After.pure fun _ => failed _ same

/-- `sbrk` of a positive increment. -/
theorem sbrk_counted (start : Start s₀) (h : Counted s₀ s) (created : Created s₀ p) (live : (s.procs p).state = .RUNNABLE) {incr : BitVec 32}
    (pos : 0 < incr.toInt) : After (sbrk p incr) s fun _ t => t.kmem.held = false → Counted s₀ t := by
  obtain ⟨id, pgt, single, pointer, table, low, image, long, small, pages⟩ := h.table created live
  have few := h.few start created
  unfold bootPages at few
  have bound := size_le_memory small (by omega)
  have whole := (PAGEROUNDUP_pages (s.procs p).size).symm
  generalize PAGEROUNDUP (s.procs p).size / PAGESIZE = b at image long whole
  have newsz : sizePlus (s.procs p).size incr < 2 ^ 39 := by
    have most : incr.toInt < 2 ^ 31 := incr.toInt_lt
    unfold sizePlus
    rw [Int.emod_eq_of_lt (by omega) (by omega)]
    omega
  have above : b = 0 ∨ (b - 1) * PAGESIZE < sizePlus (s.procs p).size incr := by
    rcases PAGEROUNDUP_bounds (small.trans (by decide)) whole with zero | ⟨-, least⟩
    · exact .inl zero
    · exact .inr (least.trans (sizePlus_gt bound pos))
  unfold sbrk
  refine After.step (get_runs s) ?_
  dsimp only
  rw [if_pos pos]
  refine After.step (tableOf_runs pointer table) ?_
  refine (onKmem_after (growUserspace_exact s.kmem whole image (by omega) above)).bind ?_
  rintro ⟨start, pgt'⟩ t ⟨⟨total, -, ⟨-, held⟩ | ⟨-, k, le, image', size, grown⟩⟩, keeps⟩
  · refine After.step (setTable_runs ..) (After.step (setProc_runs ..) (After.pure fun free => ?_))
    exact absurd held (by rw [show t.kmem.held = false from free]; exact Bool.false_ne_true)
  · rw [keeps]
    refine After.step (setTable_runs ..) (After.step (setProc_runs ..) (After.pure fun _ => ?_))
    refine h.put ‹_› created (fun q ne => Function.update_of_ne ne ..) le_rfl (fun id' lt other => ?_) ?_ (fun id' has => ?_) ?_ ?_ ?_
    · rw [pointer] at other
      have ne : id' ≠ id := fun same => other (same ▸ rfl)
      dsimp only
      rw [Function.update_of_ne ne]
      exact SameTable.refl _
    · rw [pages]
      simp only [Threads.space, UserProc.pages, Function.update_self, pointer, Option.bind_some, Option.elim_some] at *
      omega
    · simp only [Function.update_self] at has
      exact .inl has
    · simp only [Function.update_self, live]
      intro never
      cases never
    · simp only [Threads.space, Function.update_self, pointer, Option.bind_some]
      refine fun _ => ⟨single, ⟨pgt', rfl, ?_, ?_, sizePlus_lt ..⟩, newsz⟩
      · rw [size, Nat.mul_div_cancel _ (by decide)]
        exact image'
      · rw [size, Nat.mul_div_cancel _ (by decide)]
        simp only at grown
        omega
    · simp only [Function.update_self, live]
      intro never
      cases never

/-- `exit` frees all that is mapped, and the tables. -/
theorem exit_counted (start : Start s₀) (h : Counted s₀ s) (created : Created s₀ p) (live : (s.procs p).state = .RUNNABLE) :
    After (exit p) s fun _ t => t.kmem.held = false → Counted s₀ t := by
  have top : 2 ^ 16 + 1 ≤ STACKPAGE := by decide
  obtain ⟨id, pgt, single, pointer, table, low, image, long, small, pages⟩ := h.table created live
  have few := h.few start created
  unfold bootPages at few
  unfold exit
  refine After.step (get_runs s) ?_
  split
  · exact After.throw _
  · rw [single]
    refine After.step (tableOf_runs pointer table) ?_
    refine (onKmem_after (freeUserspace_exact s.kmem image (by omega))).bind ?_
    rintro _ t ⟨freed, keeps⟩
    rw [keeps]
    refine After.step (setTable_runs ..) ?_
    rintro _ u ⟨⟩ _
    refine h.put start created (fun q ne => Function.update_of_ne ne ..) le_rfl (fun id' lt other => ?_) ?_ (fun id' has => ?_) ?_ ?_ ?_
    · rw [pointer] at other
      have ne : id' ≠ id := fun same => other (same ▸ rfl)
      dsimp only
      rw [Function.update_of_ne ne]
      exact SameTable.refl _
    · rw [pages]
      simp only [Threads.space, UserProc.pages, Function.update_self, pointer, Option.bind_some, Option.elim_none]
      omega
    · simp only [Function.update_self] at has
      exact .inl has
    · simp only [Function.update_self]
      intro never
      cases never
    · simp only [Function.update_self]
      intro never
      cases never
    · simp only [Threads.space, Function.update_self, pointer, Option.bind_some, implies_true]

/-- `wait` frees the stack of one that has exited. -/
theorem freeproc_counted (start : Start s₀) (h : Counted s₀ s) (created : Created s₀ p) (dead : (s.space p).pgt = none) :
    After (freeproc p) s fun _ t => t.kmem.held = false → Counted s₀ t := by
  have freed : ∀ k : Kallocator, k.free = s.kmem.free + ((s.procs p).kstack.elim 0 fun _ => 1) →
      After (setProc p fun _ => ThreadProc.zero) { s with kmem := k } fun _ t => t.kmem.held = false → Counted s₀ t := by
    rintro k more _ t ⟨⟩ _
    refine h.put start created (fun q ne => Function.update_of_ne ne ..) le_rfl (fun _ _ _ => SameTable.refl _) ?_ (fun id has => ?_) (fun _ => ?_) ?_ ?_
    · rw [UserProc.pages, UserProc.pages, dead]
      simp only [Threads.space, Function.update_self, ThreadProc.zero, Option.bind_none, Option.elim_none]
      omega
    · simp only [Function.update_self, ThreadProc.zero] at has
      cases has
    · exact Function.update_self ..
    · simp only [Function.update_self, ThreadProc.zero]
      intro never
      cases never
    · simp only [Function.update_self, ThreadProc.zero]
      intro never
      cases never
  unfold freeproc
  refine After.step (get_runs s) ?_
  cases stack : (s.procs p).kstack with
  | none =>
    rw [stack] at freed
    exact freed s.kmem rfl
  | some page =>
    rw [stack] at freed
    refine (onKmem_after (kfree_ends s.kmem page).1).bind ?_
    rintro _ t ⟨more, keeps⟩
    rw [keeps]
    exact freed t.kmem more

/-- `clone` when there is no slot. -/
theorem clone_counted (h : Counted s₀ s) (full : ∀ q, (s.procs q).state ≠ .UNUSED) :
    After (clone p) s fun _ t => t.kmem.held = false → Counted s₀ t := by
  unfold clone
  refine (newproc_after s).bind ?_
  rintro _ t (⟨rfl, ⟨held, -⟩ | ⟨rfl, -⟩⟩ | ⟨new, stack, page, rfl, unused, -⟩)
  · exact After.pure fun free => absurd held (by rw [free]; nofun)
  · exact After.pure fun _ => h
  · exact absurd unused (full new)

end Calls

section Runs
variable {s₀ s : Threads}

/-- No allocation has failed, and only processes that have been created call `exec` or `sbrk`, exit
and are waited for. -/
def ByCreated (s₀ s : Threads) (call : ThreadCall) : Prop :=
  s.kmem.held = false ∧ match call with
    | .fork _ | .clone _ => True
    | .exec p _ _ | .sbrk p _ | .exit p | .reap p => Created s₀ p

instance (s₀ s : Threads) (call : ThreadCall) : Decidable (ByCreated s₀ s call) :=
  match call with
  | .fork _ | .clone _ => inferInstanceAs (Decidable (_ ∧ True))
  | .exec .. | .sbrk .. | .exit _ | .reap _ => inferInstanceAs (Decidable (_ ∧ _ = _))

/-- A call that does not lose a page: no process is cloned, and a file is loaded, or the call fails
before it takes pages for the file. -/
def Lossless (s : Threads) : ThreadCall → Prop
  | .clone _ => ∀ q, (s.procs q).state ≠ .UNUSED
  | .exec _ file argv => s.kmem.InRam ∧ ∀ phdrs ∈ file, Loads phdrs argv ∨ Unread phdrs
  | .fork _ | .sbrk .. | .exit _ | .reap _ => True

instance (s : Kallocator) : Decidable s.InRam := inferInstanceAs (Decidable (∀ page ∈ s.freelist, InRam page))

instance (s : Threads) (call : ThreadCall) : Decidable (Lossless s call) :=
  match call with
  | .clone _ => inferInstanceAs (Decidable (∀ _, _))
  | .exec .. => inferInstanceAs (Decidable (_ ∧ _))
  | .fork _ | .sbrk .. | .exit _ | .reap _ => inferInstanceAs (Decidable True)

/-- Empty slots have no pages. -/
theorem createdPages_empty (empty : ∀ p, Created s₀ p → s.procs p = ThreadProc.zero) : Threads.createdPages s₀ s = 0 := by
  unfold Threads.createdPages
  apply Finset.sum_eq_zero
  intro p _
  split
  · rename_i created
    rw [UserProc.pages, Threads.space, empty p created]
    rfl
  · rfl

theorem Start.counted (start : Start s) : Counted s s where
  total := by rw [createdPages_empty start.unused, Nat.add_zero]
  old _ _ := rfl
  unused := start.unused
  known := start.known
  apart p q created id has _ := by
    rw [start.unused p created] at has
    cases has
  covers := start.covers
  alive p created live := by
    rw [created] at live
    cases live
  dead p created gone := by
    rw [created] at gone
    cases gone

/-- One call. -/
theorem Counted.step {t : Threads} {call : ThreadCall} (start : Start s₀) (h : Counted s₀ s) (mine : ByCreated s₀ s call) (lossless : Lossless s call)
    (step : (history s₀).step s call = some t) (free : t.kmem.held = false) : Counted s₀ t := by
  obtain ⟨enabled, r, run⟩ := history_step.1 step
  suffices kept : After call.run s fun _ t => t.kmem.held = false → Counted s₀ t from kept r t run free
  obtain ⟨-, created⟩ := mine
  cases call with
  | fork p => exact (fork_counted start h enabled).bind fun _ _ kept => After.pure kept
  | clone p => exact (clone_counted h lossless).bind fun _ _ kept => After.pure kept
  | exec p file argv =>
    exact (exec_counted start h created enabled.1 enabled.2 lossless.2 lossless.1).bind fun _ _ kept => After.pure kept
  | sbrk p incr => exact (sbrk_counted start h created enabled.1 enabled.2).bind fun _ _ kept => After.pure kept
  | exit p => exact exit_counted start h created enabled
  | reap p => exact freeproc_counted start h created (h.dead p created enabled)

/-- **No page is lost.** In a history whose calls are lossless the pages are all there when every process
that has been created is gone. -/
theorem pages_returned (start : Start s₀) (via : (history s₀).Via (fun s call => ByCreated s₀ s call ∧ Lossless s call) s)
    (free : s.kmem.held = false) (gone : ∀ p, Created s₀ p → (s.procs p).state = .UNUSED) : s.kmem.free = s₀.kmem.free := by
  have counted : s.kmem.held = false → Counted s₀ s := by
    clear free gone
    induction via with
    | init same =>
      cases same
      exact fun _ => start.counted
    | step _ ok step ih => exact (ih ok.1.1).step start ok.1 ok.2 step
  have h := counted free
  have total := h.total
  rw [createdPages_empty fun p created => h.unused p (gone p created), Nat.add_zero] at total
  exact total

/-- The slots of a kernel with one process. -/
def oneSlot : ProcId → ThreadProc :=
  Function.update (fun _ => ThreadProc.zero) 0 { state := .RUNNABLE, pid := 0, kstack := some 0x40015, pgt := some 0, size := 0, th := false }

/-- Its user stack is all that it has, and there are 20 pages. -/
def oneProcess : Option Threads :=
  match mapUstack (Table.empty 0x40000) { freelist := List.range' 0x40001 20, held := false } with
  | .ok ((true, pgt), { freelist, held := false }) => some {
      kmem := { freelist, held := false }, tables := fun id => if id = 0 then some pgt else none, next := 1,
      procs := oneSlot, nextpid := 1 }
  | _ => none

theorem oneProcess_image (boot : oneProcess = some s) : ∃ pgt, s.procs = oneSlot ∧ s.tables 0 = some pgt ∧ s.next = 1 ∧ s.kmem.held = false ∧
    pgt.Maps (Image 0) ∧ s.kmem.free + pgt.pages = 21 := by
  unfold oneProcess at boot
  split at boot
  case h_2 => cases boot
  case h_1 pgt freelist run =>
  have empty : PageTable.Maps (Table.empty 0x40000) fun n => 1 ≤ n ∧ n < 1 + 0 := fun n _ => iff_of_false (by simp [PageTable.pte]) (by omega)
  obtain ⟨image, pages, -⟩ := (mapUstack_ends (r := 0) _ empty (by decide)).1 _ _ run
  have root : PageTable.pages (Table.empty 0x40000) = 1 := Table.weight_empty ..
  cases boot
  refine ⟨pgt, rfl, rfl, rfl, rfl, image rfl, ?_⟩
  rw [root] at pages
  exact pages

theorem oneProcess_start (boot : oneProcess = some s) : Start s := by
  obtain ⟨pgt, slots, table, next, free, image, pages⟩ := oneProcess_image boot
  have place : USTACKBOTTOM = STACKPAGE * PAGESIZE := by decide
  have running : ∀ p, (oneSlot p).state = .RUNNABLE → p = 0 := by decide +kernel
  refine ⟨free, by unfold bootPages; omega, ?_, ?_, fun p live => ?_⟩
  · rw [slots]
    decide +kernel
  · rw [slots, next]
    decide +kernel
  · rw [slots] at live
    obtain rfl := running p live
    refine ⟨?_, pgt, ?_, fun j lt => ?_, ?_⟩
    · rw [Threads.space, slots]
      show (0 : Nat) < 2 ^ 39
      decide
    · rw [Threads.space, slots]
      exact table
    · rw [Threads.space, slots] at lt
      exact absurd lt (Nat.not_lt_zero _)
    · rw [place]
      exact (image STACKPAGE (by decide)).2 (.inr rfl)

/-- The first process forks, and its child grows by a page, exits and is waited for. -/
theorem pages_returned_fork : ∃ s₀ s : Threads, s.kmem.free = s₀.kmem.free ∧ s.nextpid = 2 := by
  have run : (oneProcess.bind fun s₀ => ((history s₀).runIf (fun s call => ByCreated s₀ s call ∧ Lossless s call) s₀
      [.fork 0, .sbrk 1 0x1000#32, .exit 1, .reap 1]).map fun s =>
        decide (s.kmem.held = false ∧ (∀ p, Created s₀ p → (s.procs p).state = .UNUSED) ∧ s.nextpid = 2)) = some true := by decide +kernel
  obtain ⟨s₀, boot, rest⟩ := Option.bind_eq_some_iff.1 run
  obtain ⟨s, calls, shown⟩ := Option.map_eq_some_iff.1 rest
  obtain ⟨free, gone, pids⟩ := of_decide_eq_true shown
  exact ⟨s₀, s, pages_returned (oneProcess_start boot) ((System.Via.init rfl).runIf calls) free gone, pids⟩

/-- Its child clones itself. The thread exits and is waited for, and so does the child, and a page is missing. -/
theorem clone_loses_page : ∃ s₀ s : Threads, Start s₀ ∧ (history s₀).Via (ByCreated s₀) s ∧ s.kmem.held = false ∧
    (∀ p, Created s₀ p → (s.procs p).state = .UNUSED) ∧ s.kmem.free + 1 = s₀.kmem.free := by
  have run : (oneProcess.bind fun s₀ => ((history s₀).runIf (ByCreated s₀) s₀
      [.fork 0, .clone 1, .exit 2, .reap 2, .exit 1, .reap 1]).map fun s =>
        decide (s.kmem.held = false ∧ (∀ p, Created s₀ p → (s.procs p).state = .UNUSED) ∧ s.kmem.free + 1 = s₀.kmem.free)) = some true := by
    decide +kernel
  obtain ⟨s₀, boot, rest⟩ := Option.bind_eq_some_iff.1 run
  obtain ⟨s, calls, shown⟩ := Option.map_eq_some_iff.1 rest
  obtain ⟨free, gone, fewer⟩ := of_decide_eq_true shown
  exact ⟨s₀, s, oneProcess_start boot, (System.Via.init rfl).runIf calls, free, gone, fewer⟩

end Runs

end Aarch64Os.Kernel.Thread
