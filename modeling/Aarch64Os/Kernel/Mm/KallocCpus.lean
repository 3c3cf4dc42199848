import Aarch64Os.Base.Counting
import Aarch64Os.Base.LinkedCells
import Aarch64Os.Base.Spinlock
import Aarch64Os.Base.Transition
import Aarch64Os.Kernel.Mm.Kalloc

/-!
# `kalloc` and `kfree` on many CPUs (`kernel/kalloc.c`, `kernel/spinlock.c`)

The free pages are linked through their first words, and a CPU takes the lock of the list for a link to be
changed. The statements are steps of their own, those of `acquire` and `release` too: between two of them
other CPUs go on, and the owners of allocated pages write to them. Of a page only its first word is
shown, since no other one is read as a link.
-/

namespace Aarch64Os.Kernel.KallocCpus
set_option autoImplicit false
open Base

/-- A kernel virtual address; `NULL` is 0. -/
abbrev Addr := BitVec 64

/-- What a CPU is to do behind `acquire`. -/
inductive Call
  | kalloc
  | kfree (va : Addr)
  deriving DecidableEq

/-- The statement that a CPU is at. `release` is followed by the rest of `kalloc` when that has got a page. -/
inductive Pc
  /-- neither in `kalloc` nor in `kfree` -/
  | idle
  /-- `memset(va, 0, PAGESIZE)` in `kfree` -/
  | clear (va : Addr)
  /-- `pushcli()` -/
  | pushcli (call : Call)
  /-- `if(holding(lk))` -/
  | holding (call : Call)
  /-- the loop around `ldaxrb` and `stxrb` -/
  | spin (call : Call)
  /-- `lk->cpuid = cpuid()` -/
  | own (call : Call)
  /-- `new = kallocator.freelist` -/
  | load
  /-- `kallocator.freelist = new->next` -/
  | unlink (new : Addr)
  /-- `p->next = kallocator.freelist` -/
  | link (p : Addr)
  /-- `kallocator.freelist = p` -/
  | push (p : Addr)
  /-- `if(!holding(lk))` -/
  | release (new : Option Addr)
  /-- `lk->cpuid = -1` -/
  | disown (new : Option Addr)
  /-- `stlrb wzr, [lk->lock]` -/
  | unlock (new : Option Addr)
  /-- `popcli()` -/
  | popcli (new : Option Addr)
  /-- `memset(new, 0, PAGESIZE)` in `kalloc` -/
  | zero (new : Addr)
  /-- `return new` -/
  | give (new : Addr)
  | panic (msg : String)
  deriving DecidableEq

/-- `kallocator.lk`, with nobody for -1, `kallocator.freelist`, the first words of pages, and where each CPU is.
`out` are the pages that `kalloc` has returned and that `kfree` has not been called for since. -/
structure State (C : Type) where
  lock : Bool
  cpuid : Option C
  freelist : Addr
  next : Addr → Addr
  depth : C → Nat
  pc : C → Pc
  out : Multiset Addr

/-- A CPU calls a function, or goes on; the owner of a page writes to it. -/
inductive Label (C : Type)
  | kalloc (c : C)
  | kfree (c : C) (va : Addr)
  | write (va v : Addr)
  | go (c : C)

variable {C : Type} [DecidableEq C]

/-- A CPU is at another statement. -/
def State.at (s : State C) (c : C) (pc : Pc) : State C := { s with pc := Function.update s.pc c pc }

/-- `holding`. -/
def State.holding (s : State C) (c : C) : Bool := s.lock && s.cpuid = some c

/-- The next statement of a CPU. It waits in the loop of `acquire` while the lock is taken. -/
def State.go (s : State C) (c : C) : Option (State C) :=
  match s.pc c with
  | .idle | .panic _ => none
  | .clear va => some { s.at c (.pushcli (.kfree va)) with next := Function.update s.next va 0 }
  | .pushcli call => some { s.at c (.holding call) with depth := Function.update s.depth c (s.depth c + 1) }
  | .holding call => if s.holding c then some (s.at c (.panic "already held")) else some (s.at c (.spin call))
  | .spin call => if s.lock then none else some { s.at c (.own call) with lock := true }
  | .own call =>
    let pc := match call with
      | .kalloc => .load
      | .kfree va => .link va
    some { s.at c pc with cpuid := some c }
  | .load =>
    if s.freelist = 0 then some (s.at c .idle)  -- `return NULL`
    else some (s.at c (.unlink s.freelist))
  | .unlink new => some { s.at c (.release (some new)) with freelist := s.next new }
  | .link p => some { s.at c (.push p) with next := Function.update s.next p s.freelist }
  | .push p => some { s.at c (.release none) with freelist := p }
  | .release new => if s.holding c then some (s.at c (.disown new)) else some (s.at c (.panic "invalid release"))
  | .disown new => some { s.at c (.unlock new) with cpuid := none }
  | .unlock new => some { s.at c (.popcli new) with lock := false }
  | .popcli new =>
    if s.depth c = 0 then some (s.at c (.panic "popcli"))
    else
      let pc := match new with
        | none => .idle
        | some new => .zero new
      some { s.at c pc with depth := Function.update s.depth c (s.depth c - 1) }
  | .zero new => some { s.at c (.give new) with next := Function.update s.next new 0 }
  | .give new => some { s.at c .idle with out := new ::ₘ s.out }

/-- `kfree` behind its call: `NULL`, or an address that is not that of a page, is not cleared. -/
def kfreePc (va : Addr) : Pc :=
  if va = 0 then .idle
  else if va.toNat % PAGESIZE ≠ 0 then .panic "bad va"
  else .clear va

/-- A step. `kfree` is called for a page that is out. -/
def State.step (s : State C) : Label C → Option (State C)
  | .kalloc c =>
    match s.pc c with
    | .idle => some (s.at c (.pushcli .kalloc))
    | _ => none
  | .kfree c va =>
    match s.pc c with
    | .idle => if va ∈ s.out then some { s.at c (kfreePc va) with out := s.out.erase va } else none
    | _ => none
  | .write va v => if va ∈ s.out then some { s with next := Function.update s.next va v } else none
  | .go c => s.go c

/-- The CPUs from the end of `kalloc_init2` on, that has linked the pages of `pool`. -/
def kallocs (pool : Multiset Addr) : System (State C) (Label C) where
  init s := s.lock = false ∧ s.cpuid = none ∧ (∀ c, s.pc c = .idle) ∧ s.out = 0 ∧
    ∃ l : List Addr, Links s.next 0 s.freelist l ∧ (l : Multiset Addr) = pool
  step := State.step

/-- What a CPU has done to the lock. -/
def Pc.grip : Pc → Grip
  | .own _ | .unlock _ => .taken
  | .load | .unlink _ | .link _ | .push _ | .release _ | .disown _ => .recorded
  | _ => .none

/-- The page that it has in its hands. -/
def Call.hand : Call → Multiset Addr
  | .kalloc => 0
  | .kfree va => {va}

def Pc.hand : Pc → Multiset Addr
  | .clear p | .link p | .push p | .zero p | .give p => {p}
  | .pushcli call | .holding call | .spin call | .own call => call.hand
  | .release new | .disown new | .unlock new | .popcli new => new.elim 0 fun new => {new}
  | .idle | .load | .unlink _ | .panic _ => 0

/-- It has called `pushcli`. -/
def Pc.pushed : Pc → Bool
  | .holding _ | .spin _ | .own _ | .load | .unlink _ | .link _ | .push _ | .release _ | .disown _ | .unlock _ | .popcli _ => true
  | .idle | .clear _ | .pushcli _ | .zero _ | .give _ | .panic _ => false

/-- The statements that are left to it. -/
def Pc.left : Pc → Nat
  | .idle | .panic _ => 0
  | .give _ => 1
  | .zero _ => 2
  | .popcli _ => 3
  | .unlock _ => 4
  | .disown _ => 5
  | .release _ => 6
  | .unlink _ | .push _ => 7
  | .load | .link _ => 8
  | .own _ => 9
  | .spin _ => 10
  | .holding _ => 11
  | .pushcli _ => 12
  | .clear _ => 13

/-- What is so where it is. -/
def Pc.At (s : State C) : Pc → Prop
  | .unlink new => new = s.freelist ∧ new ≠ 0
  | .push p => s.next p = s.freelist
  | .panic _ => False
  | _ => True

/-- No call is to find the list empty. -/
def Fed (s : State C) : Label C → Prop
  | .go c => s.pc c = .load → s.freelist ≠ 0
  | _ => True

instance (s : State C) (a : Label C) : Decidable (Fed s a) :=
  match a with
  | .kalloc _ | .kfree .. | .write .. => inferInstanceAs (Decidable True)
  | .go _ => inferInstanceAs (Decidable (_ → _))

/-- Pages, each once. -/
structure Pages (pool : Multiset Addr) : Prop where
  distinct : pool.Nodup
  page : ∀ p ∈ pool, p ≠ 0 ∧ p.toNat % PAGESIZE = 0

section Invariant
variable [Fintype C] {pool : Multiset Addr} {s t : State C} {c c' : C} {l : List Addr} {p : Addr}

/-- The free pages, those that are out and those in the hands of CPUs are the pool. -/
structure Inv (pool : Multiset Addr) (s : State C) (l : List Addr) : Prop where
  spin : Recorded s.lock s.cpuid fun c => (s.pc c).grip
  links : Links s.next 0 s.freelist l
  total : ↑l + s.out + ∑ c, (s.pc c).hand = pool
  here : ∀ c, (s.pc c).At s
  depth : ∀ c, (s.pc c).pushed → 0 < s.depth c

omit [DecidableEq C] [Fintype C] in
/-- What is so for one who does not have the lock is so in any state. -/
theorem Pc.At.free {pc : Pc} (h : pc.At s) (free : pc.grip = .none) : pc.At t := by
  cases pc with
  | unlink _ | push _ => cases free
  | panic _ => exact h
  | _ => trivial

omit [DecidableEq C] [Fintype C] in
theorem Pc.At.congr {pc : Pc} (h : pc.At s) (list : t.freelist = s.freelist) (same : ∀ p ∈ pc.hand, t.next p = s.next p) : pc.At t := by
  cases pc with
  | unlink new => exact ⟨h.1.trans list.symm, h.2⟩
  | push p =>
    have before : s.next p = s.freelist := h
    show t.next p = t.freelist
    rw [same p (Multiset.mem_singleton_self p), before, list]
  | panic _ => exact h
  | _ => trivial

namespace Inv

/-- A page in the hands of a CPU is nowhere else. -/
theorem mine (h : Inv pool s l) (pages : Pages pool) (mem : p ∈ (s.pc c).hand) :
    p ∉ l ∧ p ∉ s.out ∧ ∀ c', c' ≠ c → p ∉ (s.pc c').hand := by
  have whole : ↑l + s.out + (∑ c' ∈ Finset.univ.erase c, (s.pc c').hand) + (s.pc c).hand = pool := by
    rw [← h.total, ← Finset.add_sum_erase _ _ (Finset.mem_univ c)]
    ac_rfl
  have distinct := pages.distinct
  rw [← whole] at distinct
  have rest := Multiset.disjoint_right.1 (Multiset.nodup_add.1 distinct).2.2 mem
  rw [Multiset.mem_add, Multiset.mem_add, not_or, not_or, Multiset.mem_coe] at rest
  refine ⟨rest.1.1, rest.1.2, fun c' ne other => rest.2 ?_⟩
  exact Multiset.mem_sum.2 ⟨c', Finset.mem_erase.2 ⟨ne, Finset.mem_univ c'⟩, other⟩

omit [DecidableEq C] in
/-- A page that is out is nowhere else. -/
theorem is_out (h : Inv pool s l) (pages : Pages pool) (mem : p ∈ s.out) : p ∉ l ∧ ∀ c, p ∉ (s.pc c).hand := by
  have whole : ↑l + (∑ c, (s.pc c).hand) + s.out = pool := by
    rw [← h.total]
    ac_rfl
  have distinct := pages.distinct
  rw [← whole] at distinct
  have rest := Multiset.disjoint_right.1 (Multiset.nodup_add.1 distinct).2.2 mem
  rw [Multiset.mem_add, not_or, Multiset.mem_coe] at rest
  exact ⟨rest.1, fun c held => rest.2 (Multiset.mem_sum.2 ⟨c, Finset.mem_univ c, held⟩)⟩

omit [DecidableEq C] in
/-- It is one of the pool. -/
theorem hand_mem (h : Inv pool s l) (mem : p ∈ (s.pc c).hand) : p ∈ pool := by
  rw [← h.total, Multiset.mem_add]
  exact .inr (Multiset.mem_sum.2 ⟨c, Finset.mem_univ c, mem⟩)

omit [DecidableEq C] in
theorem out_mem (h : Inv pool s l) (mem : p ∈ s.out) : p ∈ pool := by
  rw [← h.total, Multiset.mem_add, Multiset.mem_add]
  exact .inl (.inr mem)

/-- A CPU comes to `q`. -/
theorem put (h : Inv pool s l) {q : Pc} {l' : List Addr} (pc : t.pc = Function.update s.pc c q)
    (spin : Recorded t.lock t.cpuid (Function.update (fun c => (s.pc c).grip) c q.grip)) (links : Links t.next 0 t.freelist l')
    (moved : ↑l' + t.out + q.hand = ↑l + s.out + (s.pc c).hand) (here : q.At t) (others : ∀ c', c' ≠ c → (s.pc c').At t)
    (depth : ∀ c', c' ≠ c → t.depth c' = s.depth c') (depth' : q.pushed → 0 < t.depth c) : Inv pool t l' := by
  refine ⟨?_, links, ?_, ?_, ?_⟩
  · have grips : (fun c => (t.pc c).grip) = Function.update (fun c => (s.pc c).grip) c q.grip := by
      rw [pc]
      exact Function.comp_update Pc.grip s.pc c q
    rwa [grips]
  · rw [pc]
    have sums := sum_update Pc.hand s.pc c q
    apply add_right_cancel (b := (s.pc c).hand)
    calc ↑l' + t.out + (∑ c', (Function.update s.pc c q c').hand) + (s.pc c).hand
        = ↑l' + t.out + q.hand + ∑ c', (s.pc c').hand := by rw [add_assoc, sums]; ac_rfl
      _ = ↑l + s.out + (∑ c', (s.pc c').hand) + (s.pc c).hand := by rw [moved]; ac_rfl
      _ = pool + (s.pc c).hand := by rw [h.total]
  · intro c'
    rw [pc]
    rcases eq_or_ne c' c with rfl | ne
    · rwa [Function.update_self]
    · rw [Function.update_of_ne ne]
      exact others c' ne
  · intro c' pushed
    rw [pc] at pushed
    rcases eq_or_ne c' c with rfl | ne
    · rw [Function.update_self] at pushed
      exact depth' pushed
    · rw [Function.update_of_ne ne] at pushed
      rw [depth c' ne]
      exact h.depth c' pushed

/-- It does nothing but come to `q`. -/
theorem move (h : Inv pool s l) {q : Pc} (grip : q.grip = (s.pc c).grip) (hand : q.hand = (s.pc c).hand) (here : q.At s)
    {depth : C → Nat} (same : ∀ c', c' ≠ c → depth c' = s.depth c') (pushed : q.pushed → 0 < depth c) : Inv pool { s.at c q with depth } l := by
  refine h.put rfl ?_ h.links ?_ ?_ ?_ same pushed
  · rw [grip, Function.update_eq_self]
    exact h.spin
  · rw [hand]
    rfl
  · exact here.congr rfl fun _ _ => rfl
  · exact fun c' _ => (h.here c').congr rfl fun _ _ => rfl

/-- It writes the first word of a page that it has in its hands. -/
theorem write (h : Inv pool s l) (pages : Pages pool) {q : Pc} {v : Addr} (mem : p ∈ (s.pc c).hand) (grip : q.grip = (s.pc c).grip)
    (hand : q.hand = (s.pc c).hand) (here : q.At { s with next := Function.update s.next p v }) (pushed : q.pushed → 0 < s.depth c) :
    Inv pool { s.at c q with next := Function.update s.next p v } l := by
  obtain ⟨unlinked, -, others⟩ := h.mine pages mem
  refine h.put rfl ?_ (h.links.congr ?_) ?_ ?_ ?_ (fun _ _ => rfl) pushed
  · rw [grip, Function.update_eq_self]
    exact h.spin
  · intro b linked
    apply Function.update_of_ne
    rintro rfl
    exact unlinked linked
  · rw [hand]
    rfl
  · exact here.congr rfl fun _ _ => rfl
  · intro c' ne
    refine (h.here c').congr rfl fun p' mem' => Function.update_of_ne ?_ ..
    rintro rfl
    exact others c' ne mem'

/-- It has the lock, and changes the list. -/
theorem relink (h : Inv pool s l) {q : Pc} {l' : List Addr} {a : Addr} (mine : (s.pc c).grip = .recorded) (grip : q.grip = .recorded)
    (links : Links s.next 0 a l') (moved : ↑l' + s.out + q.hand = ↑l + s.out + (s.pc c).hand) (here : q.At { s with freelist := a })
    (pushed : 0 < s.depth c) : Inv pool { s.at c q with freelist := a } l' := by
  have some : (s.pc c).grip ≠ .none := by
    rw [mine]
    nofun
  refine h.put rfl ?_ links moved ?_ ?_ (fun _ _ => rfl) fun _ => pushed
  · rw [grip, ← mine]
    exact (Function.update_eq_self c fun c => (s.pc c).grip).symm ▸ h.spin
  · exact here.congr rfl fun _ _ => rfl
  · exact fun c' ne => (h.here c').free (h.spin.others some ne)

/-- `holding` is so of one who has recorded himself. -/
theorem holding_iff (h : Inv pool s l) : s.holding c = true ↔ (s.pc c).grip = .recorded := by
  rw [State.holding, Bool.and_eq_true, decide_eq_true_iff, h.spin.owner]
  refine and_iff_right_of_imp fun mine => h.spin.lock.2 ⟨c, ?_⟩
  rw [mine]
  nofun

/-- **A statement of a CPU.** -/
theorem go (h : Inv pool s l) (pages : Pages pool) (fed : Fed s (.go c)) (step : s.go c = some t) : ∃ l', Inv pool t l' := by
  have here := h.here c
  have pushed := h.depth c
  unfold State.go at step
  cases at_ : s.pc c with
  | idle | panic msg =>
    rw [at_] at step
    cases step
  | clear va =>
    rw [at_] at step
    cases step
    refine ⟨l, h.write pages ?_ ?_ ?_ trivial nofun⟩
    · rw [at_]
      exact Multiset.mem_singleton_self va
    · rw [at_]
      rfl
    · rw [at_]
      rfl
  | pushcli call =>
    rw [at_] at step
    cases step
    refine ⟨l, h.move (q := .holding call) ?_ ?_ trivial (fun c' ne => Function.update_of_ne ne ..) fun _ => ?_⟩
    · rw [at_]
      rfl
    · rw [at_]
      rfl
    · rw [Function.update_self]
      exact Nat.succ_pos _
  | holding call =>
    rw [at_] at step
    simp only at step
    have free : ¬ s.holding c = true := by
      rw [h.holding_iff, at_]
      nofun
    rw [if_neg free] at step
    cases step
    rw [at_] at pushed
    refine ⟨l, h.move (q := .spin call) ?_ ?_ trivial (fun _ _ => rfl) pushed⟩
    · rw [at_]
      rfl
    · rw [at_]
      rfl
  | spin call =>
    rw [at_] at step pushed
    simp only at step
    split at step
    · cases step
    · rename_i free
      cases step
      have spin := h.spin
      rw [Bool.not_eq_true] at free
      rw [free] at spin
      refine ⟨l, h.put rfl (spin.take c) h.links ?_ trivial ?_ (fun _ _ => rfl) pushed⟩
      · rw [at_]
        rfl
      · exact fun c' _ => (h.here c').congr rfl fun _ _ => rfl
  | own call =>
    rw [at_] at step pushed
    cases step
    have taken : (s.pc c).grip ≠ .none := by
      rw [at_]
      nofun
    cases call with
    | kalloc =>
      refine ⟨l, h.put rfl (h.spin.moves (g := .recorded) taken nofun rfl) h.links ?_ trivial ?_ (fun _ _ => rfl) pushed⟩
      · rw [at_]
        rfl
      · exact fun c' _ => (h.here c').congr rfl fun _ _ => rfl
    | kfree va =>
      refine ⟨l, h.put rfl (h.spin.moves (g := .recorded) taken nofun rfl) h.links ?_ trivial ?_ (fun _ _ => rfl) pushed⟩
      · rw [at_]
        rfl
      · exact fun c' _ => (h.here c').congr rfl fun _ _ => rfl
  | load =>
    rw [at_] at step pushed
    simp only at step
    rw [if_neg (fed at_)] at step
    cases step
    refine ⟨l, h.move (q := .unlink s.freelist) ?_ ?_ ⟨rfl, fed at_⟩ (fun _ _ => rfl) pushed⟩
    · rw [at_]
      rfl
    · rw [at_]
      rfl
  | unlink new =>
    rw [at_] at step pushed here
    cases step
    obtain ⟨rfl, some⟩ := here
    obtain ⟨rest, rfl, links⟩ := h.links.uncons some
    refine ⟨rest, h.relink ?_ rfl links ?_ trivial (pushed rfl)⟩
    · rw [at_]
      rfl
    · rw [at_, ← Multiset.cons_coe, ← Multiset.singleton_add]
      show ↑rest + s.out + {s.freelist} = {s.freelist} + ↑rest + s.out + 0
      rw [add_zero]
      ac_rfl
  | link p =>
    rw [at_] at step pushed
    cases step
    refine ⟨l, h.write pages ?_ ?_ ?_ ?_ pushed⟩
    · rw [at_]
      exact Multiset.mem_singleton_self p
    · rw [at_]
      rfl
    · rw [at_]
      rfl
    · exact Function.update_self ..
  | push p =>
    rw [at_] at step pushed
    cases step
    have linked : s.next p = s.freelist := by
      rw [at_] at here
      exact here
    refine ⟨p :: l, h.relink ?_ rfl ⟨rfl, ?_, ?_⟩ ?_ trivial (pushed rfl)⟩
    · rw [at_]
      rfl
    · apply (pages.page p (h.hand_mem (c := c) ?_)).1
      rw [at_]
      exact Multiset.mem_singleton_self p
    · rw [linked]
      exact h.links
    · rw [at_, ← Multiset.cons_coe, ← Multiset.singleton_add]
      show {p} + ↑l + s.out + 0 = ↑l + s.out + {p}
      rw [add_zero]
      ac_rfl
  | release new =>
    rw [at_] at step pushed
    simp only at step
    have mine : s.holding c = true := by
      rw [h.holding_iff, at_]
      rfl
    rw [if_pos mine] at step
    cases step
    refine ⟨l, h.move (q := .disown new) ?_ ?_ trivial (fun _ _ => rfl) pushed⟩
    · rw [at_]
      rfl
    · rw [at_]
      rfl
  | disown new =>
    rw [at_] at step pushed
    cases step
    have taken : (s.pc c).grip ≠ .none := by
      rw [at_]
      nofun
    refine ⟨l, h.put rfl (h.spin.moves (g := .taken) taken nofun rfl) h.links ?_ trivial ?_ (fun _ _ => rfl) pushed⟩
    · rw [at_]
      rfl
    · exact fun c' _ => (h.here c').congr rfl fun _ _ => rfl
  | unlock new =>
    rw [at_] at step pushed
    cases step
    refine ⟨l, h.put rfl (h.spin.free ?_) h.links ?_ trivial ?_ (fun _ _ => rfl) pushed⟩
    · rw [at_]
      rfl
    · rw [at_]
      rfl
    · exact fun c' _ => (h.here c').congr rfl fun _ _ => rfl
  | popcli new =>
    rw [at_] at step pushed
    simp only at step
    rw [if_neg (Nat.pos_iff_ne_zero.1 (pushed rfl))] at step
    cases step
    cases new with
    | none =>
      refine ⟨l, h.move (q := .idle) ?_ ?_ trivial (fun c' ne => Function.update_of_ne ne ..) nofun⟩
      · rw [at_]
        rfl
      · rw [at_]
        rfl
    | some new =>
      refine ⟨l, h.move (q := .zero new) ?_ ?_ trivial (fun c' ne => Function.update_of_ne ne ..) nofun⟩
      · rw [at_]
        rfl
      · rw [at_]
        rfl
  | zero new =>
    rw [at_] at step
    cases step
    refine ⟨l, h.write pages ?_ ?_ ?_ trivial nofun⟩
    · rw [at_]
      exact Multiset.mem_singleton_self new
    · rw [at_]
      rfl
    · rw [at_]
      rfl
  | give new =>
    rw [at_] at step
    cases step
    refine ⟨l, h.put rfl ?_ h.links ?_ trivial ?_ (fun _ _ => rfl) nofun⟩
    · have same : Grip.none = (s.pc c).grip := by
        rw [at_]
        rfl
      show Recorded s.lock s.cpuid (Function.update (fun c => (s.pc c).grip) c .none)
      rw [same, Function.update_eq_self]
      exact h.spin
    · rw [at_, ← Multiset.singleton_add]
      show ↑l + ({new} + s.out) + 0 = ↑l + s.out + {new}
      rw [add_zero]
      ac_rfl
    · exact fun c' _ => (h.here c').congr rfl fun _ _ => rfl

/-- **A step**: a call, a write by the owner of a page, or a statement. -/
theorem step (h : Inv pool s l) (pages : Pages pool) {a : Label C} (fed : Fed s a) (step : s.step a = some t) : ∃ l', Inv pool t l' := by
  cases a with
  | go c => exact h.go pages fed step
  | kalloc c =>
    simp only [State.step] at step
    split at step
    · rename_i at_
      cases step
      refine ⟨l, h.move (q := .pushcli .kalloc) ?_ ?_ trivial (fun _ _ => rfl) nofun⟩
      all_goals
        rw [at_]
        rfl
    · cases step
  | kfree c va =>
    simp only [State.step] at step
    split at step
    case h_2 => cases step
    case h_1 at_ =>
    split at step
    case isFalse => cases step
    case isTrue mem =>
    cases step
    obtain ⟨some, aligned⟩ := pages.page va (h.out_mem mem)
    have clears : kfreePc va = .clear va := by
      rw [kfreePc, if_neg some, if_neg (not_not.2 aligned)]
    rw [clears]
    refine ⟨l, h.put rfl ?_ h.links ?_ trivial ?_ (fun _ _ => rfl) nofun⟩
    · have same : (Pc.clear va).grip = (s.pc c).grip := by
        rw [at_]
        rfl
      rw [same, Function.update_eq_self]
      exact h.spin
    · rw [at_]
      show ↑l + s.out.erase va + {va} = ↑l + s.out + 0
      rw [add_zero, add_assoc, add_comm (s.out.erase va), Multiset.singleton_add, Multiset.cons_erase mem]
    · exact fun c' _ => (h.here c').congr rfl fun _ _ => rfl
  | write va v =>
    simp only [State.step] at step
    split at step
    case isFalse => cases step
    case isTrue mem =>
    cases step
    obtain ⟨unlinked, unheld⟩ := h.is_out pages mem
    refine ⟨l, h.spin, h.links.congr ?_, h.total, ?_, h.depth⟩
    · intro b linked
      apply Function.update_of_ne
      rintro rfl
      exact unlinked linked
    · intro c
      refine (h.here c).congr rfl fun p held => Function.update_of_ne ?_ ..
      rintro rfl
      exact unheld c held

theorem start (init : (kallocs pool).init s) : ∃ l, Inv pool s l := by
  obtain ⟨unlocked, nobody, idle, none, l, links, all⟩ := init
  have grips : (fun c => (s.pc c).grip) = fun _ => Grip.none := funext fun c => by rw [idle c]; rfl
  refine ⟨l, ?_, links, ?_, ?_, ?_⟩
  · rw [grips, unlocked, nobody]
    exact ⟨fun _ _ taken => absurd rfl taken, iff_of_false nofun fun ⟨_, taken⟩ => taken rfl, fun _ => iff_of_false nofun nofun⟩
  · have hands : ∑ c, (s.pc c).hand = 0 := Finset.sum_eq_zero fun c _ => by rw [idle c]; rfl
    rw [none, hands, add_zero, add_zero, all]
  · intro c
    rw [idle c]
    trivial
  · intro c
    rw [idle c]
    nofun

end Inv

/-- **However the CPUs go on**, as long as no call finds the list empty. -/
theorem via_inv (pages : Pages pool) (via : (kallocs pool).Via Fed s) : ∃ l, Inv pool s l := by
  apply via.invariant fun s init => Inv.start init
  rintro s a t ⟨l, h⟩ fed step
  exact h.step pages fed step

omit [Fintype C] in
/-- A CPU that has the lock goes on, -/
theorem go_of_grip (mine : (s.pc c).grip ≠ .none) : (s.go c).isSome := by
  unfold State.go
  cases at_ : s.pc c with
  | own call | unlink new | link p | push p | disown new | unlock new => rfl
  | load =>
    simp only
    split
    · rfl
    · rfl
  | release new =>
    simp only
    split
    · rfl
    · rfl
  | _ =>
    rw [at_] at mine
    exact absurd rfl mine

/-- and one that does not only waits for one that has it. -/
theorem Inv.going (h : Inv pool s l) (inside : s.pc c ≠ .idle) : ∃ c', s.pc c' ≠ .idle ∧ (s.go c').isSome := by
  by_cases goes : (s.go c).isSome
  · exact ⟨c, inside, goes⟩
  have waits : s.lock = true := by
    by_contra free
    apply goes
    have here := h.here c
    unfold State.go
    cases at_ : s.pc c with
    | idle => exact absurd at_ inside
    | panic msg =>
      rw [at_] at here
      exact here.elim
    | clear va | pushcli call | own call | unlink new | link p | push p | disown new | unlock new | zero new | give new => rfl
    | holding call | load | release new | popcli new =>
      simp only
      split
      · rfl
      · rfl
    | spin call =>
      simp only
      rw [if_neg free]
      rfl
  obtain ⟨c', mine⟩ := h.spin.lock.1 waits
  refine ⟨c', ?_, go_of_grip mine⟩
  intro idle
  rw [idle] at mine
  exact mine rfl

omit [Fintype C] in
/-- A statement less is left to a CPU that goes on. -/
theorem go_pc (step : s.go c = some t) : ∃ q, t.pc = Function.update s.pc c q ∧ q.left < (s.pc c).left := by
  unfold State.go at step
  cases at_ : s.pc c with
  | idle | panic msg =>
    rw [at_] at step
    cases step
  | clear va | pushcli call | unlink new | link p | push p | disown new | unlock new | zero new | give new =>
    rw [at_] at step
    cases step
    exact ⟨_, rfl, by simp [Pc.left]⟩
  | holding call | load | release new =>
    rw [at_] at step
    simp only at step
    split at step
    · cases step
      exact ⟨_, rfl, by simp [Pc.left]⟩
    · cases step
      exact ⟨_, rfl, by simp [Pc.left]⟩
  | spin call =>
    rw [at_] at step
    simp only at step
    split at step
    · cases step
    · cases step
      exact ⟨_, rfl, by simp [Pc.left]⟩
  | own call =>
    rw [at_] at step
    cases step
    cases call with
    | kalloc => exact ⟨_, rfl, by simp [Pc.left]⟩
    | kfree va => exact ⟨_, rfl, by simp [Pc.left]⟩
  | popcli new =>
    rw [at_] at step
    simp only at step
    split at step
    · cases step
      exact ⟨_, rfl, by simp [Pc.left]⟩
    · cases step
      cases new with
      | none => exact ⟨_, rfl, by simp [Pc.left]⟩
      | some new => exact ⟨_, rfl, by simp [Pc.left]⟩

/-- The statements that are left to all. -/
theorem run_left {cs : List C} (run : (kallocs pool).run s (cs.map .go) = some t) : cs.length + ∑ c, (t.pc c).left ≤ ∑ c, (s.pc c).left := by
  induction cs generalizing s with
  | nil =>
    cases run
    exact (Nat.zero_add _).le
  | cons c cs ih =>
    obtain ⟨u, step, rest⟩ := Option.bind_eq_some_iff.1 run
    obtain ⟨q, pc, less⟩ := go_pc step
    have fewer := ih rest
    have moved := sum_update Pc.left s.pc c q
    rw [pc] at fewer
    rw [List.length_cons]
    omega

/-- What the allocator is to be in a state: no CPU has stopped, and none has the lock outside of its calls. The free pages are linked
up to `NULL` and distinct; with those that are out and those in the hands of CPUs they are the pool. A page that is
returned is not out. A CPU in a call goes on, or one that it waits for. -/
structure Right (pool : Multiset Addr) (s : State C) : Prop where
  runs : ∀ c msg, s.pc c ≠ .panic msg
  released : ∀ c, s.holding c = true → (s.pc c).grip = .recorded
  held : s.lock = true → ∃ c, (s.pc c).grip ≠ .none
  list : ∃ l : List Addr, Links s.next 0 s.freelist l ∧ l.Nodup ∧ ↑l + s.out + ∑ c, (s.pc c).hand = pool
  fresh : ∀ c p, s.pc c = .give p → p ∉ s.out
  going : ∀ c, s.pc c ≠ .idle → ∃ c', s.pc c' ≠ .idle ∧ (s.go c').isSome

theorem Inv.right (h : Inv pool s l) (pages : Pages pool) : Right pool s := by
  refine ⟨?_, fun c => h.holding_iff.1, h.spin.lock.1, ⟨l, h.links, ?_, h.total⟩, ?_, fun c => h.going⟩
  · intro c msg stopped
    have here := h.here c
    rw [stopped] at here
    exact here
  · have distinct := pages.distinct
    rw [← h.total, add_assoc] at distinct
    exact Multiset.coe_nodup.1 (Multiset.nodup_add.1 distinct).1
  · intro c p at_
    refine (h.mine pages (c := c) ?_).2.1
    rw [at_]
    exact Multiset.mem_singleton_self p

/-- When no CPU is in a call, the lock is free, and the pages are free or out. -/
theorem Right.rest (h : Right pool s) (idle : ∀ c, s.pc c = .idle) : s.lock = false ∧
    ∃ l : List Addr, Links s.next 0 s.freelist l ∧ l.Nodup ∧ ↑l + s.out = pool := by
  obtain ⟨l, links, distinct, total⟩ := h.list
  have hands : ∑ c, (s.pc c).hand = 0 := Finset.sum_eq_zero fun c _ => by rw [idle c]; rfl
  rw [hands, add_zero] at total
  refine ⟨?_, l, links, distinct, total⟩
  by_contra locked
  obtain ⟨c, mine⟩ := h.held (Bool.of_not_eq_false locked)
  rw [idle c] at mine
  exact mine rfl

/-- The lock is held by a CPU that has left `kalloc`. -/
structure Stuck (s : State C) (c : C) : Prop where
  locked : s.lock = true
  cpuid : s.cpuid = some c
  empty : s.freelist = 0
  outside : ∀ c, (s.pc c).grip = .none

omit [Fintype C] in
/-- A call that finds the list empty. -/
theorem not_fed_step {a : Label C} (hungry : ¬ Fed s a) (step : s.step a = some t) : ∃ c, a = .go c ∧ s.pc c = .load ∧ s.freelist = 0 ∧ t = s.at c .idle := by
  cases a with
  | go c =>
    obtain ⟨at_, empty⟩ := Classical.not_imp.1 hungry
    have empty := not_not.1 empty
    have step : s.go c = some t := step
    unfold State.go at step
    rw [at_] at step
    simp only at step
    rw [if_pos empty] at step
    cases step
    exact ⟨c, rfl, at_, empty, rfl⟩
  | _ => exact absurd trivial hungry

/-- It leaves the lock held. -/
theorem Inv.stuck (h : Inv pool s l) (at_ : s.pc c = .load) (empty : s.freelist = 0) : Stuck (s.at c .idle) c := by
  have mine : (s.pc c).grip = .recorded := by
    rw [at_]
    rfl
  have some : (s.pc c).grip ≠ .none := by
    rw [mine]
    nofun
  refine ⟨h.spin.lock.2 ⟨c, some⟩, (h.spin.owner c).2 mine, empty, ?_⟩
  intro c'
  show (Function.update s.pc c .idle c').grip = .none
  rcases eq_or_ne c' c with rfl | ne
  · rw [Function.update_self]
    rfl
  · rw [Function.update_of_ne ne]
    exact h.spin.others some ne

omit [Fintype C] in
theorem Stuck.put (h : Stuck s c) {q : Pc} (lock : t.lock = s.lock) (cpuid : t.cpuid = s.cpuid) (list : t.freelist = s.freelist)
    (pc : t.pc = Function.update s.pc c' q) (grip : q.grip = .none) : Stuck t c := by
  refine ⟨lock.trans h.locked, cpuid.trans h.cpuid, list.trans h.empty, ?_⟩
  intro c''
  rw [pc]
  rcases eq_or_ne c'' c' with rfl | ne
  · rwa [Function.update_self]
  · rw [Function.update_of_ne ne]
    exact h.outside c''

omit [Fintype C] in
/-- No step releases it. -/
theorem Stuck.step (h : Stuck s c) {a : Label C} (step : s.step a = some t) : Stuck t c := by
  cases a with
  | kalloc c' =>
    simp only [State.step] at step
    split at step
    · cases step
      exact h.put rfl rfl rfl rfl rfl
    · cases step
  | kfree c' va =>
    simp only [State.step] at step
    split at step
    case h_2 => cases step
    case h_1 =>
    split at step
    case isFalse => cases step
    case isTrue =>
    cases step
    refine h.put rfl rfl rfl rfl ?_
    unfold kfreePc
    split
    · rfl
    · split
      · rfl
      · rfl
  | write va v =>
    simp only [State.step] at step
    split at step
    · cases step
      exact ⟨h.locked, h.cpuid, h.empty, h.outside⟩
    · cases step
  | go c' =>
    have step : s.go c' = some t := step
    have outside := h.outside c'
    unfold State.go at step
    cases at_ : s.pc c' with
    | idle | panic msg =>
      rw [at_] at step
      cases step
    | clear va | pushcli call | zero new | give new =>
      rw [at_] at step
      cases step
      exact h.put rfl rfl rfl rfl rfl
    | holding call =>
      rw [at_] at step
      simp only at step
      split at step
      · cases step
        exact h.put rfl rfl rfl rfl rfl
      · cases step
        exact h.put rfl rfl rfl rfl rfl
    | spin call =>
      rw [at_] at step
      simp only at step
      rw [if_pos h.locked] at step
      cases step
    | popcli new =>
      rw [at_] at step
      simp only at step
      split at step
      · cases step
        exact h.put rfl rfl rfl rfl rfl
      · cases step
        cases new with
        | none => exact h.put rfl rfl rfl rfl rfl
        | some new => exact h.put rfl rfl rfl rfl rfl
    | own call | load | unlink new | link p | push p | release new | disown new | unlock new =>
      rw [at_] at outside
      cases outside

/-- **The allocator on many CPUs.** It is right in every state of a run in which no call finds the list empty, and in no state
that such a call leads to: the pages are out or in the hands of CPUs then, and no run from there releases the lock. All calls
of a state come to their end in as many statements as are left. -/
theorem kallocs_right (pages : Pages pool) (via : (kallocs pool).Via Fed s) : Right pool s ∧
    (∀ a t, (kallocs pool).step s a = some t → (Right pool t ↔ Fed s a)) ∧
    (∀ a t, (kallocs pool).step s a = some t → ¬ Fed s a → t.out + ∑ c, (t.pc c).hand = pool ∧
      ∃ c, t.pc c = .idle ∧ ∀ u, ((kallocs pool).startingAt t).Reach u → Stuck u c) ∧
    ∀ (cs : List C) (t : State C), (kallocs pool).run s (cs.map .go) = some t → cs.length + ∑ c, (t.pc c).left ≤ ∑ c, (s.pc c).left := by
  obtain ⟨l, h⟩ := via_inv pages via
  refine ⟨h.right pages, ?_, ?_, fun cs t => run_left⟩
  · intro a t step
    constructor
    · intro right
      by_contra hungry
      obtain ⟨c, rfl, at_, empty, rfl⟩ := not_fed_step hungry step
      have stuck := h.stuck at_ empty
      have mine := right.released c (by rw [State.holding, stuck.locked, stuck.cpuid]; simp)
      rw [stuck.outside c] at mine
      cases mine
    · intro fed
      obtain ⟨l', h'⟩ := h.step pages fed step
      exact h'.right pages
  · intro a t step hungry
    obtain ⟨c, rfl, at_, empty, rfl⟩ := not_fed_step hungry step
    refine ⟨?_, c, Function.update_self .., ?_⟩
    · have none := h.links.eq_null_iff.1 empty
      have total := h.total
      have moved := sum_update Pc.hand s.pc c .idle
      rw [at_] at moved
      have same : ∑ c', (Function.update s.pc c .idle c').hand = ∑ c', (s.pc c').hand := by
        simpa only [Pc.hand, add_zero] using moved
      show s.out + ∑ c', (Function.update s.pc c .idle c').hand = pool
      rw [same, ← total, none, Multiset.coe_nil, zero_add]
    · intro u reach
      apply reach.invariant
      · rintro _ rfl
        exact h.stuck at_ empty
      · exact fun _ _ _ stuck _ step => stuck.step step

/-- Two CPUs and two pages. -/
def twoPages : List Addr := [0xffffff8040200000#64, 0xffffff8040201000#64]
def twoPagesStart : State (Fin 2) where
  lock := false
  cpuid := none
  freelist := 0xffffff8040201000#64
  next := Function.update (fun _ => 0#64) 0xffffff8040201000#64 0xffffff8040200000#64
  depth _ := 0
  pc _ := .idle
  out := 0

theorem twoPages_pages : Pages (twoPages : Multiset Addr) := by
  refine ⟨by decide +kernel, ?_⟩
  rw [twoPages]
  simp [PAGESIZE]

theorem twoPages_init : (kallocs (twoPages : Multiset Addr)).init twoPagesStart := by
  refine ⟨rfl, rfl, fun _ => rfl, rfl, twoPages.reverse, ?_, Multiset.coe_reverse twoPages⟩
  unfold twoPagesStart twoPages
  simp [Links]

local instance twoCpus : NeZero 2 := ⟨by decide⟩

/-- Both call `kalloc`, and wait for each other. -/
def bothCall : List (Label (Fin 2)) :=
  [.kalloc 0, .kalloc 1, .go 0, .go 1, .go 0, .go 1] ++ List.replicate 10 (.go 0) ++ List.replicate 10 (.go 1)

theorem bothCall_right : ∃ s : State (Fin 2), (kallocs (twoPages : Multiset Addr)).Via Fed s ∧ s.out = twoPages ∧
    Right (twoPages : Multiset Addr) s := by
  have run : ((kallocs (twoPages : Multiset Addr)).runIf Fed twoPagesStart bothCall).any (fun s => s.out = (twoPages : Multiset Addr)) = true := by
    decide +kernel
  obtain ⟨s, calls, shown⟩ := (Option.any_eq_true _ _).1 run
  have via := (System.Via.init twoPages_init).runIf calls
  exact ⟨s, via, of_decide_eq_true shown, (kallocs_right twoPages_pages via).1⟩

/-- CPU 0 takes both pages, and asks for another one: it returns with the lock, and stops in its next call of `kfree`. -/
def threeCalls : List (Label (Fin 2)) :=
  .kalloc 0 :: List.replicate 12 (.go 0) ++ .kalloc 0 :: List.replicate 12 (.go 0) ++ .kalloc 0 :: List.replicate 5 (.go 0)

theorem kalloc_keeps_lock : ∃ s t : State (Fin 2), (kallocs (twoPages : Multiset Addr)).Reach s ∧ s.pc 0 = .idle ∧ s.lock = true ∧
    ¬ Right (twoPages : Multiset Addr) s ∧
    (kallocs (twoPages : Multiset Addr)).run s [.kfree 0 0xffffff8040200000#64, .go 0, .go 0, .go 0] = some t ∧ t.pc 0 = .panic "already held" := by
  have run : ((kallocs (twoPages : Multiset Addr)).run twoPagesStart threeCalls).any (fun s =>
      s.pc 0 = .idle ∧ s.lock = true ∧ s.cpuid = some 0 ∧
        ((kallocs (twoPages : Multiset Addr)).run s [.kfree 0 0xffffff8040200000#64, .go 0, .go 0, .go 0]).any fun t =>
          t.pc 0 = .panic "already held") = true := by decide +kernel
  obtain ⟨s, calls, shown⟩ := (Option.any_eq_true _ _).1 run
  obtain ⟨idle, locked, owner, frees⟩ := of_decide_eq_true shown
  obtain ⟨t, frees, stopped⟩ := (Option.any_eq_true _ _).1 frees
  refine ⟨s, t, System.Via.run (System.Via.init twoPages_init) calls, idle, locked, ?_, frees, of_decide_eq_true stopped⟩
  intro right
  have mine := right.released 0 (by rw [State.holding, locked, owner]; rfl)
  rw [idle] at mine
  cases mine

end Invariant

end Aarch64Os.Kernel.KallocCpus
