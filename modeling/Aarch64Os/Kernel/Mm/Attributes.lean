import Aarch64Os.Kernel.Mm.AddressSpaces
import Aarch64Os.Kernel.Mm.FreshPages

/-!
# The attributes of user pages (`kernel/mm.c`, `kernel/proc.c`)

`exec` maps the pages of an image with one set of attributes, `sbrk` and the stack get another one that forbids
execution, and `fork` maps its copies with the first, whatever the page that it copies has. Which pages
of a process `sbrk` has mapped is not recorded: it is kept here beside the processes, since what `fork`
does depends on it.
-/

namespace Aarch64Os.Kernel
set_option autoImplicit false
open Base

/-- The attributes of the pages that `exec` and `fork` map, -/
def imageAttr : BitVec 64 := PTE_NORMAL ||| PTE_U

/-- and those of the stack and the pages that `sbrk` maps: they are not executable. -/
def heapAttr : BitVec 64 := PTE_NORMAL ||| PTE_U ||| PTE_UXN ||| PTE_PXN

/-- Entries have come to a table, all with the same attributes. -/
structure PageTable.Adds (attr : BitVec 64) (t t' : PageTable) : Prop where
  kept : ∀ va pte, t.pte va = some pte → t'.pte va = some pte
  new : ∀ va pte, t'.pte va = some pte → t.pte va = some pte ∨ t.pte va = none ∧ pte.attr = attr

/-- The pages that `fork` copies of an image. -/
def Copies (size n : Nat) : Prop := ∃ i, i * PAGESIZE < size ∧ vpn ((1 + i) * PAGESIZE) = n

section Calls
variable {t t' t'' : PageTable} {attr : BitVec 64} {s : Kallocator} {va : Nat}

theorem vpn_page (n : Nat) : vpn (n * PAGESIZE) = n % 2 ^ 27 := by
  rw [vpn, Nat.mul_div_cancel _ (by decide)]

namespace PageTable.Adds

theorem refl (t : PageTable) (attr : BitVec 64) : t.Adds attr t := ⟨fun _ _ there => there, fun _ _ there => .inl there⟩

theorem trans (first : t.Adds attr t') (second : t'.Adds attr t'') : t.Adds attr t'' := by
  constructor
  · exact fun va pte there => second.kept va pte (first.kept va pte there)
  · intro va pte there
    rcases second.new va pte there with old | ⟨none, same⟩
    · exact first.new va pte old
    · refine .inr ⟨?_, same⟩
      cases entry : t.pte va with
      | none => rfl
      | some pte =>
        rw [first.kept va pte entry] at none
        cases none

/-- A walk behind it maps nothing. -/
theorem walk (h : t.Adds attr t') (same : ∀ va, t''.pte va = t'.pte va) : t.Adds attr t'' := by
  constructor
  · exact fun va pte there => (same va).trans (h.kept va pte there)
  · exact fun va pte there => h.new va pte ((same va).symm.trans there)

theorem isSome (h : t.Adds attr t') (there : (t.pte va).isSome) : (t'.pte va).isSome := by
  obtain ⟨pte, entry⟩ := Option.isSome_iff_exists.1 there
  rw [h.kept va pte entry]
  rfl

end PageTable.Adds

/-- `pagemap` of one page adds its entry. -/
theorem pagemap_adds (t : PageTable) (va : Nat) (page : PageNo) (attr : BitVec 64) (s : Kallocator) :
    After (pagemap t va (page * PAGESIZE) PAGESIZE attr) s fun t' _ => t.Adds attr t' ∧ t.pte va = none ∧
      (∃ pte, t'.pte va = some pte ∧ pte.attr = attr) ∧ ∀ va', vpn va' ≠ vpn va → t'.pte va' = t.pte va' := by
  unfold pagemap
  split
  · exact After.throw _
  rw [Nat.div_self (by decide)]
  unfold mapPages
  refine (pagewalkDeref_ends t va s).1.bind ?_
  intro t' u walked
  split
  · exact After.throw _
  rename_i clear
  rw [walked.pte, Option.not_isSome_iff_eq_none] at clear
  have others : ∀ va', vpn va' ≠ vpn va → (t'.setPte va (some { page := page * PAGESIZE / PAGESIZE % 2 ^ 36, attr })).pte va' = t.pte va' := by
    intro va' ne
    rw [PageTable.pte_setPte_ne _ _ ne, walked.pte]
  have here := PageTable.pte_setPte (x := some { page := page * PAGESIZE / PAGESIZE % 2 ^ 36, attr }) walked.ready rfl
  apply After.pure
  refine ⟨⟨?_, ?_⟩, clear, ⟨_, here, rfl⟩, others⟩
  · intro va' pte there
    rw [others va', there]
    intro same
    rw [t.pte_vpn same, clear] at there
    cases there
  · intro va' pte there
    rcases eq_or_ne (vpn va') (vpn va) with same | ne
    · rw [PageTable.pte_vpn _ same, here] at there
      cases there
      rw [t.pte_vpn same]
      exact .inr ⟨clear, rfl⟩
    · rw [others va' ne] at there
      exact .inl there

/-- So do the loops that take pages and map them. -/
theorem allocPages_adds (attr : BitVec 64) (size left : Nat) : ∀ (t : PageTable) (va p : Nat) (s : Kallocator),
    After (allocPages attr size left t va p) s fun r _ => t.Adds attr r.2 := by
  induction left with
  | zero => exact fun _ _ _ _ => After.throw _
  | succ left ih =>
    intro t va p s
    unfold allocPages
    split
    · refine After.behind fun page s' => ?_
      cases page with
      | none => exact After.pure (.refl t attr)
      | some page =>
        refine (pagemap_adds t va page attr s').bind ?_
        rintro t' u ⟨adds, -⟩
        exact (ih t' _ _ u).mono fun _ _ more => adds.trans more
    · exact After.pure (.refl t attr)

theorem allocUserspace_adds (t : PageTable) (va memsz : Nat) (s : Kallocator) :
    After (allocUserspace t va memsz) s fun r _ => t.Adds imageAttr r.2 := by
  unfold allocUserspace
  refine After.step (get_runs s) ?_
  exact (allocPages_adds _ memsz _ t va 0 s).bind fun r _ adds => After.pure adds

theorem growUserspace_adds (t : PageTable) (va oldsz newsz : Nat) (s : Kallocator) :
    After (growUserspace t va oldsz newsz) s fun r _ => t.Adds heapAttr r.2 := by
  unfold growUserspace
  refine After.step (get_runs s) ?_
  exact (allocPages_adds _ newsz _ t _ _ s).bind fun r _ adds => After.pure adds

/-- `map_ustack` adds the stack. -/
theorem mapUstack_adds (t : PageTable) (s : Kallocator) : After (mapUstack t) s fun r _ => r.1 = true → t.Adds heapAttr r.2 ∧
    t.pte USTACKBOTTOM = none ∧ (∃ pte, r.2.pte USTACKBOTTOM = some pte ∧ pte.attr = heapAttr) ∧
      ∀ va, vpn va ≠ vpn USTACKBOTTOM → r.2.pte va = t.pte va := by
  unfold mapUstack
  refine After.behind fun ustack s' => ?_
  cases ustack with
  | none => exact After.pure nofun
  | some ustack => exact (pagemap_adds t USTACKBOTTOM ustack heapAttr s').bind fun _ _ adds => After.pure fun _ => adds

/-- The segments of an executable have the attributes of an image. -/
theorem execSegments_adds (phdrs : List (Option Phdr)) : ∀ (t : PageTable) (memsize : Nat) (s : Kallocator),
    After (execSegments phdrs t memsize) s fun e _ => t.Adds imageAttr e.2 := by
  induction phdrs with
  | nil => exact fun t _ _ => After.pure (.refl t imageAttr)
  | cons ph phdrs ih =>
    intro t memsize s
    cases ph with
    | none => exact After.pure (.refl t imageAttr)
    | some ph =>
      unfold execSegments
      split
      · exact ih t memsize s
      · refine (allocUserspace_adds t _ _ s).bind ?_
        rintro ⟨sz, t'⟩ u adds
        dsimp only
        split
        · exact After.pure adds
        · refine (loadPrg_ends t' _ _ _ u).1.bind ?_
          rintro ⟨r, t''⟩ v ⟨same, -⟩
          dsimp only
          split
          · exact After.pure (adds.walk same)
          · exact (ih t'' _ v).mono fun _ _ more => (adds.walk same).trans more

/-- A process has its stack, and its other pages have the attributes of an image, but for those of its heap. -/
structure PageTable.Marked (t : PageTable) (heap : Nat → Bool) : Prop where
  stack : ∃ pte, t.pte USTACKBOTTOM = some pte ∧ pte.attr = heapAttr
  grown : ∀ n < 2 ^ 27, heap n = true → n ≠ STACKPAGE ∧ ∃ pte, t.pte (n * PAGESIZE) = some pte ∧ pte.attr = heapAttr
  rest : ∀ n < 2 ^ 27, heap n = false → n ≠ STACKPAGE → ∀ pte, t.pte (n * PAGESIZE) = some pte → pte.attr = imageAttr

theorem vpn_USTACKBOTTOM : vpn USTACKBOTTOM = STACKPAGE := by decide

/-- `exec`. -/
theorem execSpace_marked (size : Nat) (file : Option (List (Option Phdr))) (argv : List Nat) (s : Kallocator) :
    After (execSpace t size file argv) s fun e _ => (e.2 = none ∧ e.1 = -1) ∨
      ∃ new memsize, e.2 = some (new, memsize) ∧ 0 ≤ e.1 ∧ new.Marked fun _ => false := by
  unfold execSpace
  cases file with
  | none => exact After.pure (.inl ⟨rfl, rfl⟩)
  | some phdrs =>
  refine After.behind fun page u => ?_
  cases page with
  | none => exact After.pure (.inl ⟨rfl, rfl⟩)
  | some page =>
  refine (execSegments_adds phdrs _ 0 u).bind ?_
  rintro ⟨loaded, new⟩ v adds
  cases loaded with
  | none => exact After.behind fun _ _ => After.pure (.inl ⟨rfl, rfl⟩)
  | some memsize =>
  refine (mapUstack_adds new v).bind ?_
  rintro ⟨mapped, new'⟩ w stack
  cases mapped with
  | false => exact After.throw _
  | true =>
  obtain ⟨-, -, here, others⟩ := stack rfl
  simp only [Bool.not_true, Bool.false_eq_true, if_false]
  split
  · exact After.behind fun _ _ => After.pure (.inl ⟨rfl, rfl⟩)
  · rename_i argc _
    refine After.behind fun _ _ => After.pure (.inr ⟨new', memsize, rfl, Int.natCast_nonneg argc, here, nofun, ?_⟩)
    intro n lt _ ne pte there
    have other : vpn (n * PAGESIZE) ≠ vpn USTACKBOTTOM := by rwa [vpn_page, Nat.mod_eq_of_lt lt, vpn_USTACKBOTTOM]
    rw [others _ other] at there
    rcases adds.new _ pte there with never | ⟨-, same⟩
    · cases never
    · exact same

/-- The loop of `cp_userspace`: a page behind `2 ^ 27` would be mapped a second time. -/
theorem copyPages_adds (size left : Nat) : ∀ {new old : PageTable} {b : Nat} {s : Kallocator}, b ≤ 2 ^ 27 →
    (∀ i < b, (new.pte ((1 + i) * PAGESIZE)).isSome) →
    After (copyPages size left new old ((1 + b) * PAGESIZE) (b * PAGESIZE)) s fun r _ => new.Adds imageAttr r.2.1 ∧
      (∀ va, r.2.2.pte va = old.pte va) ∧ (r.1 = true → ∀ i, i * PAGESIZE < size → (r.2.1.pte ((1 + i) * PAGESIZE)).isSome) ∧
        ∀ n < 2 ^ 27, (r.2.1.pte (n * PAGESIZE)).isSome → (new.pte (n * PAGESIZE)).isSome ∨ Copies size n := by
  induction left with
  | zero => exact fun _ _ => After.throw _
  | succ left ih =>
    intro new old b s le before
    unfold copyPages
    split
    · rename_i more
      refine (pagewalkDeref_ends old _ s).1.bind ?_
      intro old' u walked
      refine After.behind fun page v => ?_
      cases page with
      | none => exact After.pure ⟨.refl new imageAttr, walked.pte, fun fails => Bool.noConfusion fails, fun _ _ there => .inl there⟩
      | some page =>
        refine (pagemap_adds new _ page imageAttr v).bind ?_
        rintro new' w ⟨adds, clear, ⟨pte, here, -⟩, others⟩
        have lt : b < 2 ^ 27 := by
          by_contra ge
          obtain rfl : b = 2 ^ 27 := by omega
          have first := before 0 (by decide)
          have wraps : vpn ((1 + 0) * PAGESIZE) = vpn ((1 + 2 ^ 27) * PAGESIZE) := by decide
          rw [new.pte_vpn wraps, clear] at first
          cases first
        rw [next_page (by omega), next_page (by omega), Nat.add_assoc]
        refine After.mono (@ih new' _ (b + 1) _ lt ?_) ?_
        · intro i below
          rcases Nat.lt_succ_iff_lt_or_eq.1 below with below | rfl
          · exact adds.isSome (before i below)
          · rw [here]
            rfl
        · rintro r _ ⟨adds', same, all, only⟩
          refine ⟨adds.trans adds', fun va => (same va).trans (walked.pte va), all, ?_⟩
          intro n small there
          rcases only n small there with old | copied
          · rcases eq_or_ne (vpn (n * PAGESIZE)) (vpn ((1 + b) * PAGESIZE)) with this | ne
            · rw [vpn_page n, Nat.mod_eq_of_lt small] at this
              exact .inr ⟨b, more, this.symm⟩
            · rw [others _ ne] at old
              exact .inl old
          · exact .inr copied
    · rename_i ending
      refine After.pure ⟨.refl new imageAttr, fun _ => rfl, ?_, fun _ _ there => .inl there⟩
      intro _ i below
      apply before i
      by_contra ge
      exact ending (lt_of_le_of_lt (Nat.mul_le_mul_right _ (not_lt.1 ge)) below)

/-- `cp_userspace` to an empty table. -/
theorem cpUserspace_marked {new old : PageTable} (empty : new.Maps fun _ => False) (size : Nat) (s : Kallocator) :
    After (cpUserspace new old 0x1000 size) s fun r _ => (∀ va, r.2.2.pte va = old.pte va) ∧ (¬ r.1 < 0 → r.2.1.Marked (fun _ => false) ∧
      ∀ n < 2 ^ 27, n ≠ STACKPAGE → ((r.2.1.pte (n * PAGESIZE)).isSome ↔ Copies size n)) := by
  unfold cpUserspace
  refine After.step (get_runs s) ?_
  have loop := @copyPages_adds size (s.free + 1) new old 0 s (by decide) fun i lt => absurd lt i.not_lt_zero
  rw [show (1 + 0) * PAGESIZE = 0x1000 by decide, Nat.zero_mul] at loop
  refine loop.bind ?_
  rintro ⟨done, new₁, old₁⟩ u ⟨adds, same, all, only⟩
  cases done with
  | false => exact After.pure ⟨same, fun ok => absurd (show (-1 : Int) < 0 by decide) ok⟩
  | true =>
  simp only [Bool.not_true, Bool.false_eq_true, if_false]
  refine (pagewalkDeref_ends old₁ _ u).1.bind ?_
  intro old₂ v walked
  refine (mapUstack_adds new₁ v).bind ?_
  rintro ⟨mapped, new₂⟩ w stack
  refine After.pure ⟨fun va => (walked.pte va).trans (same va), ?_⟩
  intro ok
  cases mapped with
  | false => exact absurd (show (-1 : Int) < 0 by decide) ok
  | true =>
  obtain ⟨-, clear, here, others⟩ := stack rfl
  have other : ∀ n < 2 ^ 27, n ≠ STACKPAGE → new₂.pte (n * PAGESIZE) = new₁.pte (n * PAGESIZE) := by
    intro n lt ne
    apply others
    rwa [vpn_page, Nat.mod_eq_of_lt lt, vpn_USTACKBOTTOM]
  refine ⟨⟨here, nofun, ?_⟩, ?_⟩
  · intro n lt _ ne pte there
    rw [other n lt ne] at there
    rcases adds.new _ pte there with old | ⟨-, image⟩
    · have none := (empty n lt).1
      rw [old] at none
      exact (none rfl).elim
    · exact image
  · intro n lt ne
    show (new₂.pte (n * PAGESIZE)).isSome ↔ _
    rw [other n lt ne]
    constructor
    · intro there
      exact (only n lt there).resolve_left fun old => (empty n lt).1 old
    · rintro ⟨i, below, rfl⟩
      have page : vpn (vpn ((1 + i) * PAGESIZE) * PAGESIZE) = vpn ((1 + i) * PAGESIZE) := by
        rw [vpn_page (vpn _), vpn_page, Nat.mod_mod]
      rw [new₁.pte_vpn page]
      exact all rfl i below

end Calls

/-- The processes, and for each the pages that `sbrk` has mapped since its last `exec`, or since `fork` has made it. -/
structure Aged where
  spaces : Spaces
  heap : ProcId → Nat → Bool

/-- A page that a process maps now, and did not before. -/
def UserProc.Gets (q q' : UserProc) (n : Nat) : Bool :=
  (q.pgt.bind fun pgt => pgt.pte (n * PAGESIZE)).isNone && (q'.pgt.bind fun pgt => pgt.pte (n * PAGESIZE)).isSome

/-- The state that the slot of a call must be in. The executable is any file. -/
def SpaceCall.live (s : Spaces) : SpaceCall → Prop
  | sbrk p _ | fork p | exec p .. | exit p => (s.procs p).state = .RUNNABLE
  | reap p => (s.procs p).state = .ZOMBIE

instance (s : Spaces) (call : SpaceCall) : Decidable (call.live s) :=
  match call with
  | .sbrk .. | .fork _ | .exec .. | .exit _ | .reap _ => inferInstanceAs (Decidable (_ = _))

/-- A call that returns. -/
def Aged.call (m : Aged) : SpaceCall → Except Fault Aged
  | .sbrk p incr => (sbrk p incr m.spaces).map fun r =>
    { spaces := r.2, heap := Function.update m.heap p fun n => m.heap p n || (m.spaces.procs p).Gets (r.2.procs p) n }
  | .fork p => (forkSpace p m.spaces).map fun r =>
    { spaces := r.2, heap := fun q => if (m.spaces.procs q).state = .UNUSED then fun _ => false else m.heap q }
  | .exec p file argv => (execProc p file argv m.spaces).map fun r =>
    { spaces := r.2, heap := if r.1 < (0 : Int) then m.heap else Function.update m.heap p fun _ => false }
  | .exit p => (exitSpace p m.spaces).map fun r => { m with spaces := r.2 }
  | .reap p => (freeprocSpace p m.spaces).map fun r => { m with spaces := r.2 }

/-- The processes from the first one on, whatever they execute. -/
def aged : System Aged SpaceCall where
  init m := (∀ p n, m.heap p n = false) ∧ ∃ freelist size,
    userprocInit size { kmem := { freelist, held := false }, procs := fun _ => UserProc.zero, nextpid := 0 } = .ok (true, m.spaces)
  step m call := if call.live m.spaces then (m.call call).toOption else none

section Processes
variable {s t : Spaces} {p q : ProcId} {m m' : Aged}

/-- A slot that runs has a table, and the pages of its heap are known. -/
def Aged.Known (m : Aged) : Prop := ∀ p, (m.spaces.procs p).state = .RUNNABLE → ∃ pgt, (m.spaces.procs p).pgt = some pgt ∧ pgt.Marked (m.heap p)

/-- The pages that parent and child map have the same attributes. -/
def SameAttrs (parent child : UserProc) : Prop := ∀ pgt ∈ parent.pgt, ∀ pgt' ∈ child.pgt, ∀ n < 2 ^ 27,
  ∀ pte ∈ pgt.pte (n * PAGESIZE), ∀ pte' ∈ pgt'.pte (n * PAGESIZE), pte'.attr = pte.attr

/-- What is known of a table is known of one with the same entries. -/
theorem PageTable.Marked.congr {t t' : PageTable} {heap heap' : Nat → Bool} (h : t.Marked heap) (same : ∀ va, t'.pte va = t.pte va)
    (marks : ∀ n < 2 ^ 27, heap' n = heap n) : t'.Marked heap' := by
  constructor
  · obtain ⟨pte, there, attr⟩ := h.stack
    exact ⟨pte, (same _).trans there, attr⟩
  · intro n lt mine
    rw [marks n lt] at mine
    obtain ⟨ne, pte, there, attr⟩ := h.grown n lt mine
    exact ⟨ne, pte, (same _).trans there, attr⟩
  · intro n lt other ne pte there
    rw [marks n lt] at other
    exact h.rest n lt other ne pte ((same _).symm.trans there)

/-- A slot that `newproc` has found. -/
theorem newprocSpace_after (s : Spaces) : After newprocSpace s fun new t =>
    (t.procs = s.procs ∧ new = none ∨ ∃ q r, (s.procs q).state = .UNUSED ∧ r.state = .CREATED ∧ t.procs = Function.update s.procs q r ∧
      ∀ q', new = some q' → q' = q ∧ ∃ page, r.pgt = some (Table.empty page)) := by
  unfold newprocSpace
  refine After.step (get_runs s) ?_
  split
  case h_1 => exact After.pure (.inl ⟨rfl, rfl⟩)
  case h_2 new found =>
  have unused : (s.procs new).state = .UNUSED := by simpa using List.find?_some found
  refine After.step (setProc_runs ..) (After.step (modify_runs ..) ?_)
  refine onKmem_frame.bind ?_
  intro kstack t same
  rw [same]
  refine After.step (setProc_runs ..) ?_
  cases kstack with
  | none =>
    apply After.pure
    simp only [Function.update_idem, Function.update_self]
    exact .inr ⟨new, _, unused, rfl, rfl, nofun⟩
  | some kstack =>
  rw [if_neg (by simp)]
  refine onKmem_frame.bind ?_
  intro pgt u same'
  rw [same']
  refine After.step (setProc_runs ..) ?_
  apply After.pure
  simp only [Function.update_idem, Function.update_self]
  refine .inr ⟨new, _, unused, rfl, rfl, ?_⟩
  intro q' made
  cases pgt with
  | none => cases made
  | some page =>
    cases made
    exact ⟨rfl, page, rfl⟩

theorem freeprocSpace_after (s : Spaces) (p : ProcId) :
    After (freeprocSpace p) s fun _ t => t.procs = Function.update s.procs p UserProc.zero := by
  unfold freeprocSpace
  refine After.step (get_runs s) ?_
  split
  · intro _ t run
    cases run
    rfl
  · refine onKmem_frame.bind ?_
    intro _ t same
    rw [same]
    intro _ u run
    cases run
    rfl

/-- What `fork` has made of the processes that run: the caller has its entries, the others are as before, and a slot that was
unused may have a child, which maps the pages that have been copied. -/
structure Forked (s : Spaces) (p : ProcId) (old : PageTable) (t : Spaces) : Prop where
  parent : ∃ pgt, (t.procs p).pgt = some pgt ∧ ∀ va, pgt.pte va = old.pte va
  runs : ∀ q, q ≠ p → (t.procs q).state = .RUNNABLE → t.procs q = s.procs q ∨ (s.procs q).state = .UNUSED ∧
    ∃ new, (t.procs q).pgt = some new ∧ new.Marked (fun _ => false) ∧
      ∀ n < 2 ^ 27, n ≠ STACKPAGE → ((new.pte (n * PAGESIZE)).isSome ↔ Copies (s.procs p).size n)

theorem forkSpace_after {old : PageTable} (live : (s.procs p).state = .RUNNABLE) (has : (s.procs p).pgt = some old) :
    After (forkSpace p) s fun _ t => Forked s p old t := by
  have none : ∀ procs : ProcId → UserProc, (∃ q r, (s.procs q).state = .UNUSED ∧ r.state = .CREATED ∧ procs = Function.update s.procs q r) →
      procs p = s.procs p ∧ ∀ q, (procs q).state = .RUNNABLE → procs q = s.procs q := by
    rintro _ ⟨q, r, unused, created, rfl⟩
    constructor
    · apply Function.update_of_ne
      rintro rfl
      rw [unused] at live
      cases live
    · intro q' runs
      rcases eq_or_ne q' q with rfl | ne
      · rw [Function.update_self, created] at runs
        cases runs
      · exact Function.update_of_ne ne ..
  unfold forkSpace
  refine (newprocSpace_after s).bind ?_
  rintro new t made
  cases new with
  | none =>
    apply After.pure
    rcases made with ⟨same, -⟩ | ⟨q, r, unused, created, same, -⟩
    · exact ⟨⟨old, by rw [same, has], fun _ => rfl⟩, fun q _ _ => .inl (by rw [same])⟩
    · obtain ⟨kept, others⟩ := none t.procs ⟨q, r, unused, created, same⟩
      exact ⟨⟨old, by rw [kept, has], fun _ => rfl⟩, fun q _ runs => .inl (others q runs)⟩
  | some new =>
  obtain ⟨-, never⟩ | ⟨q, r, unused, created, same, found⟩ := made
  · cases never
  obtain ⟨rfl, page, root⟩ := found new rfl
  obtain ⟨kept, others⟩ := none t.procs ⟨new, r, unused, created, same⟩
  have mine : t.procs new = r := by rw [same, Function.update_self]
  have ne : new ≠ p := by
    rintro rfl
    rw [unused] at live
    cases live
  refine After.step (get_runs t) (After.step (pgtOf_runs (show (t.procs p).pgt = some old by rw [kept, has])) ?_)
  refine After.step (pgtOf_runs (show (t.procs new).pgt = some (Table.empty page) by rw [mine, root])) ?_
  have empty : PageTable.Maps (Table.empty page) fun _ => False := fun n _ => iff_of_false (by simp [PageTable.pte]) id
  refine (onKmem_after (cpUserspace_marked empty (t.procs p).size t.kmem)).bind ?_
  rintro ⟨code, newpgt, oldpgt⟩ u ⟨⟨entries, child⟩, keeps⟩
  rw [keeps]
  refine After.step (setProc_runs ..) ?_
  rw [kept] at child
  have later : ∀ slot : UserProc, ∀ q, q ≠ p → q ≠ new → ((Function.update (Function.update t.procs p { s.procs p with pgt := some oldpgt }) new slot q).state =
      .RUNNABLE) → Function.update (Function.update t.procs p { s.procs p with pgt := some oldpgt }) new slot q = s.procs q := by
    intro slot q other ne' runs
    rw [Function.update_of_ne ne', Function.update_of_ne other] at runs ⊢
    exact others q runs
  split
  · refine (freeprocSpace_after _ new).bind ?_
    intro _ v freed
    apply After.pure
    simp only [kept] at freed
    refine ⟨⟨oldpgt, ?_, entries⟩, ?_⟩
    · rw [freed, Function.update_of_ne ne.symm, Function.update_self]
    · intro q other runs
      rw [freed] at runs ⊢
      rcases eq_or_ne q new with rfl | ne'
      · rw [Function.update_self] at runs
        cases runs
      · exact .inl (later _ q other ne' runs)
  · rename_i done
    obtain ⟨marked, copies⟩ := child done
    refine After.step (setProc_runs ..) (After.pure ?_)
    simp only [kept]
    refine ⟨⟨oldpgt, ?_, entries⟩, ?_⟩
    · simp only [Function.update_of_ne ne.symm, Function.update_self]
    · intro q other runs
      rcases eq_or_ne q new with rfl | ne'
      · refine .inr ⟨unused, newpgt, ?_, marked, copies⟩
        simp only [Function.update_self]
      · exact .inl (later _ q other ne' runs)

/-- Entries that `sbrk` adds are of the heap. -/
theorem PageTable.Marked.adds {t t' : PageTable} {heap : Nat → Bool} (h : t.Marked heap) (adds : t.Adds heapAttr t') :
    t'.Marked fun n => heap n || ((t.pte (n * PAGESIZE)).isNone && (t'.pte (n * PAGESIZE)).isSome) := by
  constructor
  · obtain ⟨pte, there, attr⟩ := h.stack
    exact ⟨pte, adds.kept _ pte there, attr⟩
  · intro n lt mine
    rcases Bool.or_eq_true_iff.1 mine with old | new
    · obtain ⟨ne, pte, there, attr⟩ := h.grown n lt old
      exact ⟨ne, pte, adds.kept _ pte there, attr⟩
    · obtain ⟨none, some⟩ := Bool.and_eq_true_iff.1 new
      obtain ⟨pte, there⟩ := Option.isSome_iff_exists.1 some
      rw [Option.isNone_iff_eq_none] at none
      refine ⟨?_, pte, there, ?_⟩
      · rintro rfl
        obtain ⟨pte', stack, -⟩ := h.stack
        rw [show STACKPAGE * PAGESIZE = USTACKBOTTOM by decide, stack] at none
        cases none
      · rcases adds.new _ pte there with old | ⟨-, attr⟩
        · rw [none] at old
          cases old
        · exact attr
  · intro n lt other ne pte there
    obtain ⟨before, kept⟩ := Bool.or_eq_false_iff.1 other
    rw [there, Option.isSome_some, Bool.and_true, Option.isNone_eq_false_iff] at kept
    obtain ⟨pte', old⟩ := Option.isSome_iff_exists.1 kept
    have same := adds.kept _ pte' old
    rw [there] at same
    cases same
    exact h.rest n lt before ne pte old

/-- `sbrk` only adds entries of a heap. -/
theorem sbrk_adds {old : PageTable} (has : (s.procs p).pgt = some old) (incr : BitVec 32) : After (sbrk p incr) s fun _ t =>
    ∃ r pgt, t.procs = Function.update s.procs p r ∧ r.pgt = some pgt ∧ old.Adds heapAttr pgt := by
  unfold sbrk
  refine After.step (get_runs s) ?_
  dsimp only
  split
  · refine After.step (pgtOf_runs has) ?_
    refine (onKmem_after (growUserspace_adds old _ _ _ s.kmem)).bind ?_
    rintro ⟨h, pgt⟩ t ⟨adds, same⟩
    rw [same]
    refine After.step (setProc_runs ..) (After.pure ?_)
    exact ⟨_, pgt, rfl, rfl, adds⟩
  · refine After.step (setProc_runs ..) (After.pure ?_)
    exact ⟨_, old, rfl, has, .refl old heapAttr⟩

theorem pgtOf_after (s : Spaces) (p : ProcId) : After (pgtOf p) s fun pgt t => t = s ∧ (s.procs p).pgt = some pgt := by
  intro pgt t run
  cases has : (s.procs p).pgt with
  | none =>
    unfold pgtOf at run
    obtain ⟨_, _, got, rest⟩ := run_bind.1 run
    cases got
    rw [has] at rest
    cases rest
  | some own =>
    rw [pgtOf_runs has] at run
    cases run
    exact ⟨rfl, rfl⟩

/-- `exec` leaves the process as it was, or with an image and a stack. -/
theorem execProc_marked (s : Spaces) (p : ProcId) (file : Option (List (Option Phdr))) (argv : List Nat) :
    After (execProc p file argv) s fun code t => (t.procs = s.procs ∧ code < 0) ∨
      ¬ code < 0 ∧ ∃ r pgt, t.procs = Function.update s.procs p r ∧ r.pgt = some pgt ∧ pgt.Marked fun _ => false := by
  unfold execProc
  refine After.step (get_runs s) ((pgtOf_after s p).bind ?_)
  rintro old t ⟨rfl, -⟩
  refine (onKmem_after (execSpace_marked (t := old) _ file argv t.kmem)).bind ?_
  rintro ⟨code, new⟩ u ⟨ended, same⟩
  rw [same]
  rcases ended with ⟨none, failed⟩ | ⟨pgt, memsize, loaded, done, marked⟩
  · simp only at none failed
    rw [none, failed]
    exact After.pure (.inl ⟨rfl, by decide⟩)
  · simp only at loaded done
    rw [loaded]
    refine After.step (setProc_runs ..) (After.pure (.inr ⟨not_lt.2 done, ?_⟩))
    exact ⟨_, pgt, rfl, rfl, marked⟩

theorem exitSpace_after (s : Spaces) (p : ProcId) :
    After (exitSpace p) s fun _ t => ∃ r, t.procs = Function.update s.procs p r ∧ r.state = .ZOMBIE := by
  unfold exitSpace
  refine After.step (get_runs s) ?_
  split
  · exact After.throw _
  · refine (pgtOf_after s p).bind ?_
    rintro pgt t ⟨rfl, -⟩
    refine onKmem_frame.bind ?_
    intro _ u same
    rw [same]
    intro _ v run
    cases run
    exact ⟨_, rfl, rfl⟩

theorem map_runs {ε α β : Type} {x : Except ε α} {f : α → β} {b : β} (run : x.map f = .ok b) : ∃ a, x = .ok a ∧ f a = b := by
  cases x with
  | error e => cases run
  | ok a =>
    cases run
    exact ⟨a, rfl, rfl⟩

/-- A slot changes, and the others are known. -/
theorem Aged.Known.put (h : m.Known) {r : UserProc} (procs : m'.spaces.procs = Function.update m.spaces.procs p r)
    (heap : ∀ q, q ≠ p → m'.heap q = m.heap q) (own : r.state = .RUNNABLE → ∃ pgt, r.pgt = some pgt ∧ pgt.Marked (m'.heap p)) : m'.Known := by
  intro q live
  rw [procs] at live ⊢
  rcases eq_or_ne q p with rfl | ne
  · rw [Function.update_self] at live ⊢
    exact own live
  · rw [Function.update_of_ne ne] at live ⊢
    rw [heap q ne]
    exact h q live

theorem aged_step {call : SpaceCall} (step : aged.step m call = some m') : call.live m.spaces ∧ m.call call = .ok m' := by
  have step : (if call.live m.spaces then (m.call call).toOption else none) = some m' := step
  split at step
  case isFalse => cases step
  case isTrue live =>
  refine ⟨live, ?_⟩
  cases run : m.call call with
  | error e =>
    rw [run] at step
    cases step
  | ok u =>
    rw [run] at step
    cases step
    rfl

/-- **What a call does to the attributes** of the processes that run. -/
theorem Aged.Known.step {call : SpaceCall} (h : m.Known) (step : aged.step m call = some m') : m'.Known := by
  obtain ⟨live, called⟩ := aged_step step
  cases call with
  | sbrk p incr =>
    obtain ⟨⟨_, t⟩, run, rfl⟩ := map_runs called
    obtain ⟨old, has, marked⟩ := h p live
    obtain ⟨r, pgt, procs, own, adds⟩ := sbrk_adds has incr _ _ run
    refine h.put procs (fun q ne => Function.update_of_ne ne ..) fun _ => ⟨pgt, own, ?_⟩
    refine (marked.adds adds).congr (fun _ => rfl) fun n _ => ?_
    show Function.update m.heap p (fun n => m.heap p n || (m.spaces.procs p).Gets (t.procs p) n) p n = _
    rw [Function.update_self, UserProc.Gets, has, procs, Function.update_self, own]
    rfl
  | fork p =>
    obtain ⟨⟨_, t⟩, run, rfl⟩ := map_runs called
    obtain ⟨old, has, marked⟩ := h p live
    have live : (m.spaces.procs p).state = .RUNNABLE := live
    obtain ⟨⟨pgt, own, same⟩, runs⟩ := forkSpace_after live has _ _ run
    intro q live'
    show ∃ pgt, (t.procs q).pgt = some pgt ∧ pgt.Marked (if (m.spaces.procs q).state = .UNUSED then fun _ => false else m.heap q)
    rcases eq_or_ne q p with rfl | ne
    · rw [if_neg (by rw [live]; nofun)]
      exact ⟨pgt, own, marked.congr same fun _ _ => rfl⟩
    · rcases runs q ne live' with kept | ⟨unused, new, has', marked', -⟩
      · have live' : (t.procs q).state = .RUNNABLE := live'
        rw [kept] at live'
        rw [if_neg (by rw [live']; nofun), kept]
        exact h q live'
      · rw [if_pos unused]
        exact ⟨new, has', marked'⟩
  | exec p file argv =>
    obtain ⟨⟨code, t⟩, run, rfl⟩ := map_runs called
    rcases execProc_marked m.spaces p file argv _ _ run with ⟨same, failed⟩ | ⟨done, r, pgt, procs, own, marked⟩
    · have failed : code < 0 := failed
      simp only [if_pos failed]
      intro q live'
      have same : t.procs = m.spaces.procs := same
      have live' : (t.procs q).state = .RUNNABLE := live'
      show ∃ pgt, (t.procs q).pgt = some pgt ∧ pgt.Marked (m.heap q)
      rw [same] at live' ⊢
      exact h q live'
    · have done : ¬ code < 0 := done
      simp only [if_neg done]
      refine h.put procs (fun q ne => Function.update_of_ne ne ..) fun _ => ⟨pgt, own, ?_⟩
      show pgt.Marked (Function.update m.heap p (fun _ => false) p)
      rw [Function.update_self]
      exact marked
  | exit p =>
    obtain ⟨⟨_, t⟩, run, rfl⟩ := map_runs called
    obtain ⟨r, procs, dead⟩ := exitSpace_after m.spaces p _ _ run
    refine h.put procs (fun _ _ => rfl) fun live => ?_
    rw [dead] at live
    cases live
  | reap p =>
    obtain ⟨⟨_, t⟩, run, rfl⟩ := map_runs called
    have procs := freeprocSpace_after m.spaces p _ _ run
    exact h.put procs (fun _ _ => rfl) nofun

/-- The first process. -/
theorem aged_init (boot : aged.init m) : m.Known := by
  obtain ⟨none, freelist, size, run⟩ := boot
  suffices h : After (userprocInit size) _ fun mapped t => mapped = true → ∀ p, (t.procs p).state = .RUNNABLE →
      ∃ pgt, (t.procs p).pgt = some pgt ∧ pgt.Marked fun _ => false by
    intro p live
    rw [funext (none p)]
    exact h _ _ run rfl p live
  clear run
  unfold userprocInit
  refine (newprocSpace_after _).bind ?_
  rintro new t made
  cases new with
  | none => exact After.throw _
  | some new =>
  obtain ⟨-, never⟩ | ⟨q, r, -, -, same, found⟩ := made
  · cases never
  obtain ⟨rfl, page, root⟩ := found new rfl
  refine After.step (pgtOf_runs (show (t.procs new).pgt = some (Table.empty page) by rw [same, Function.update_self, root])) ?_
  refine After.step (get_runs t) ?_
  refine (onKmem_after (allocPages_adds imageAttr size _ _ _ _ t.kmem)).bind ?_
  rintro ⟨done, pgt⟩ u ⟨adds, keeps⟩
  cases done with
  | false => exact After.throw _
  | true =>
  simp only [Bool.not_true, Bool.false_eq_true, if_false]
  refine (onKmem_after (mapUstack_adds pgt u.kmem)).bind ?_
  rintro ⟨mapped, pgt'⟩ v ⟨stack, keeps'⟩
  rw [keeps', keeps]
  refine After.step (setProc_runs ..) (After.pure ?_)
  rintro rfl p live
  obtain ⟨-, -, here, others⟩ := stack rfl
  simp only [same] at live ⊢
  rcases eq_or_ne p new with rfl | ne
  · simp only [Function.update_self]
    refine ⟨pgt', rfl, here, nofun, ?_⟩
    intro n lt _ ne pte there
    rw [others _ (by rwa [vpn_page, Nat.mod_eq_of_lt lt, vpn_USTACKBOTTOM])] at there
    rcases adds.new _ pte there with never | ⟨-, attr⟩
    · cases never
    · exact attr
  · simp only [Function.update_of_ne ne] at live
    cases live

theorem smallBoot_aged {s : Spaces} (boot : smallBoot = some s) : aged.init ⟨s, fun _ _ => false⟩ := by
  obtain ⟨freelist, size, -, run⟩ := smallBoot_init boot
  exact ⟨fun _ _ => rfl, freelist, size, run⟩

end Processes

end Aarch64Os.Kernel
