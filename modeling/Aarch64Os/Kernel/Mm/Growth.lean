import Aarch64Os.Base.Tiling
import Aarch64Os.Kernel.Mm.AddressSpaces
import Aarch64Os.Kernel.Mm.Copying

/-!
# The memory that `sbrk` gives (`kernel/proc.c`, `kernel/mm.c`)

`grow_userspace` maps the pages between the old size and the new one, both rounded up. What is left of
the last page of the old size it takes to be mapped: that is so where the size is that of what is mapped.
-/

namespace Aarch64Os.Kernel.Words
set_option autoImplicit false
open Base

/-- The pages from `a` on, `k` of them, have been taken and mapped since `s₀`. -/
structure Growing (s₀ : Ram) (t₀ : PageTable) (a k : Nat) (s : Ram) (t : PageTable) : Prop where
  owned : Owned s t
  name : t.name = t₀.name
  new : ∀ n, a ≤ n → n < a + k → t₀.pte (n * PAGESIZE) = none
  mapped : ∀ n, a ≤ n → n < a + k → (t.pte (n * PAGESIZE)).isSome
  kept : ∀ n < 2 ^ 27, ¬ (a ≤ n ∧ n < a + k) → t.pte (n * PAGESIZE) = t₀.pte (n * PAGESIZE)
  words : ∀ n < 2 ^ 27, ∀ pte ∈ t₀.pte (n * PAGESIZE), s.word pte.page = s₀.word pte.page

section Loop
variable {s₀ s s₁ s₂ : Ram} {t₀ t : PageTable} {a k : Nat} {attr : BitVec 64} {page : PageNo}

theorem Growing.start (h : Owned s₀ t₀) (a : Nat) : Growing s₀ t₀ a 0 s₀ t₀ :=
  ⟨h, rfl, fun n ge lt => absurd lt (by omega), fun n ge lt => absurd lt (by omega), fun _ _ _ => rfl, fun _ _ _ _ => rfl⟩

/-- A page of the old table is one of the new, where it is not one that is new. -/
theorem Growing.old_pte (h : Growing s₀ t₀ a k s t) {n : Nat} (lt : n < 2 ^ 27) {pte : Pte} (entry : t₀.pte (n * PAGESIZE) = some pte) :
    t.pte (n * PAGESIZE) = some pte := by
  rw [h.kept n lt, entry]
  rintro ⟨ge, lt'⟩
  rw [h.new n ge lt'] at entry
  cases entry

/-- A round of the loop. -/
theorem Growing.allocPage (h : Growing s₀ t₀ a k s t) (bits : PTE_PA attr = 0#64) (lt : a + k < 2 ^ 27)
    (run₁ : kalloc s = .ok (some page, s₁)) (run₂ : pagemap t₀.name ((a + k) * PAGESIZE) (page * PAGESIZE) PAGESIZE attr s₁ = .ok ((), s₂)) :
    ∃ t', Growing s₀ t₀ a (k + 1) s₂ t' := by
  rcases kalloc_words s _ _ run₁ with ⟨never, -⟩ | ⟨new, same, pool, list, -, words⟩
  · cases never
  cases same
  have free : page ∈ s.kmem.freelist := by
    rw [list]
    exact List.mem_cons_self
  have outside : page ∉ t.owned := fun mem => h.owned.not_free mem free
  have inside := h.owned.ram page (Multiset.mem_add.2 (.inl (Multiset.mem_coe.2 free)))
  have holds := h.owned.holds
  have held : Holds s₁ Clear.user t := by
    constructor
    · apply (Level.first Clear.user).frame holds.shows
      intro q mem
      rw [words, Function.update_of_ne]
      rintro rfl
      exact outside (Multiset.mem_of_le t.tables_le_owned mem)
    · have apart := holds.apart
      rw [pool, Multiset.cons_add, Multiset.nodup_cons] at apart
      exact apart.2
    · intro q mem
      apply holds.low
      rw [list]
      exact List.mem_cons_of_mem page mem
  rw [← h.name] at run₂
  obtain ⟨t', mapped⟩ := pagemap_new held bits lt inside.small _ _ run₂
  have becomes := mapped.becomes
  have same : s₂.kmem.pool + t'.owned = s.kmem.pool + t.owned := by
    rw [mapped.pool, pool, ← Multiset.singleton_add]
    ac_rfl
  refine ⟨t', ⟨becomes.holds.shows, ?_, ?_⟩, becomes.name.trans h.name, ?_, ?_, ?_, ?_⟩
  · rw [same]
    exact h.owned.apart
  · rw [same]
    exact h.owned.ram
  · intro n ge lt'
    rcases eq_or_ne n (a + k) with rfl | ne
    · have new := mapped.new
      rwa [h.kept _ lt (by omega)] at new
    · exact h.new n ge (by omega)
  · intro n ge lt'
    rw [mapped.maps n (by omega)]
    split
    · rfl
    · exact h.mapped n ge (by omega)
  · intro n lt' other
    rw [mapped.maps n lt', if_neg (by omega)]
    exact h.kept n lt' (by omega)
  · intro n lt' pte entry
    have mine := h.old_pte lt' entry
    have leaf := PageTable.leaf_mem mine
    have used := h.owned.not_free leaf
    rw [list, List.mem_cons, not_or] at used
    rw [becomes.frame pte.page (PageTable.leaf_not_table (Multiset.nodup_add.1 h.owned.apart).2.1 mine) used.2, words,
      Function.update_of_ne used.1]
    exact h.words n lt' pte entry

/-- **The loop of `grow_userspace`.** -/
theorem allocPages_after {b : Nat} (bits : PTE_PA attr = 0#64) (size left : Nat) : ∀ {s : Ram} {t : PageTable} {k : Nat},
    Growing s₀ t₀ a k s t → (∀ j, (b + j) * PAGESIZE < size → a + j < 2 ^ 27 ∧ b + j < 2 ^ 27) → (∀ j < k, (b + j) * PAGESIZE < size) → k < 2 ^ 28 →
      a < 2 ^ 28 → b < 2 ^ 28 →
    After (allocPages attr size left t₀.name ((a + k) * PAGESIZE) ((b + k) * PAGESIZE)) s fun done s' => done = true →
      ∃ r t', size ≤ (b + r) * PAGESIZE ∧ (∀ j < r, (b + j) * PAGESIZE < size) ∧ Growing s₀ t₀ a r s' t' := by
  induction left with
  | zero => exact fun _ _ _ _ _ _ => After.throw _
  | succ left ih =>
    intro s t k h low before few lowa lowb
    unfold allocPages
    split
    · rename_i more
      obtain ⟨lt, lt'⟩ := low k more
      intro done s' run
      obtain ⟨page, s₁, run₁, rest⟩ := run_bind.1 run
      cases page with
      | none =>
        cases rest
        intro fails
        cases fails
      | some page =>
        obtain ⟨_, s₂, run₂, rest⟩ := run_bind.1 rest
        obtain ⟨t', h'⟩ := h.allocPage bits lt run₁ run₂
        rw [next_page (by omega), next_page (by omega), Nat.add_assoc, Nat.add_assoc] at rest
        refine ih h' low ?_ (by omega) lowa lowb _ _ rest
        intro j below
        rcases Nat.lt_succ_iff_lt_or_eq.1 below with below | rfl
        · exact before j below
        · exact more
    · rename_i ending
      exact After.pure fun _ => ⟨k, t, not_lt.1 ending, before, h⟩

end Loop

/-- The loop comes to an end: the rounds that it is given are enough. -/
theorem allocPages_no_hang (attr : BitVec 64) (size left : Nat) : ∀ {pgt : PageNo} {va p : Nat} {s : Ram}, s.kmem.free < left →
    Ends (· = .hang) (allocPages attr size left pgt va p) s fun _ _ => True := by
  induction left with
  | zero => exact fun few => absurd few (Nat.not_lt_zero _)
  | succ left ih =>
    intro pgt va p s few
    unfold allocPages
    split
    · apply (kalloc_free s).bind
      intro page s₁ taken
      cases page with
      | none => exact Ends.pure trivial
      | some page =>
        apply (pagemap_free pgt va _ _ attr s₁).bind
        intro _ s₂ less
        simp only [Option.elim_some] at taken
        exact ih (by omega)
    · exact Ends.pure trivial

theorem growUserspace_no_hang (pgt : PageNo) (va oldsz newsz : Nat) (s : Ram) : growUserspace pgt va oldsz newsz s ≠ .error .hang := by
  have ends : Ends (· = .hang) (growUserspace pgt va oldsz newsz) s fun _ _ => True := by
    unfold growUserspace
    apply Ends.step (get_runs s)
    exact (allocPages_no_hang _ _ _ (Nat.lt_succ_self _)).bind fun _ _ _ => Ends.pure trivial
  exact fun hangs => ends.2 _ hangs rfl

/-- `sbrk`: what it returns, and the new size. -/
def sbrk (pgt : PageNo) (size : Nat) (incr : BitVec 32) : RamM (Option Nat × Nat) := do
  if incr.toInt > 0 then
    let h ← growUserspace pgt 0x1000 size (sizePlus size incr)
    pure (h, sizePlus size incr)
  else pure (none, sizePlus size incr)

section Calls
variable {s s' s₁ : Ram} {t : PageTable} {size h : Nat} {incr : BitVec 32} {root : PageNo}

/-- The pages of a size. -/
theorem PAGEROUNDUP_least (low : size ≤ 2 ^ 63) : ∃ b, PAGEROUNDUP size = b * PAGESIZE ∧ size ≤ b * PAGESIZE ∧ b * PAGESIZE < size + PAGESIZE := by
  refine ⟨PAGEROUNDUP size / PAGESIZE, (PAGEROUNDUP_pages size).symm, ?_⟩
  rw [PAGEROUNDUP_pages, PAGEROUNDUP, Nat.mod_eq_of_lt (by simp only [PAGESIZE, U64]; omega)]
  simp only [PAGESIZE]
  omega

/-- What a call of `sbrk` has done when it succeeds: `k` pages are new, behind the `b` of the old size. -/
structure Grows (s : Ram) (t : PageTable) (size newsz b k : Nat) (s' : Ram) (t' : PageTable) : Prop where
  whole : size ≤ b * PAGESIZE
  least : b * PAGESIZE < size + PAGESIZE
  covers : newsz ≤ (b + k) * PAGESIZE
  needed : ∀ j < k, (b + j) * PAGESIZE < newsz
  growing : Growing s t (1 + b) k s' t'

theorem sbrk_after (owned : Owned s t) (pos : 0 < incr.toInt) (below : 0x1000 + size + incr.toNat ≤ USTACKBOTTOM) :
    After (sbrk t.name size incr) s fun r s' => r.2 = size + incr.toNat ∧ ∀ h, r.1 = some h → h = 0x1000 + size ∧
      ∃ b k t', Grows s t size (size + incr.toNat) b k s' t' := by
  have top : USTACKBOTTOM ≤ 2 ^ 39 := by decide
  have low : 0x1000 + size + incr.toNat ≤ 2 ^ 39 := below.trans top
  have half : size ≤ 2 ^ 63 := by omega
  obtain ⟨b, round, whole, least⟩ := PAGEROUNDUP_least half
  have start : (0x1000 + size) % U64 = 0x1000 + size := Nat.mod_eq_of_lt (by simp only [U64]; omega)
  have first : (0x1000 + b * PAGESIZE) % U64 = (1 + b + 0) * PAGESIZE := by
    simp only [PAGESIZE, U64] at *
    omega
  have pages : ∀ j, (b + j) * PAGESIZE < size + incr.toNat → 1 + b + j < 2 ^ 27 ∧ b + j < 2 ^ 27 := by
    intro j more
    simp only [PAGESIZE] at *
    omega
  unfold sbrk growUserspace
  dsimp only
  rw [if_pos pos, sizePlus_eq (by omega) pos, start, round, first]
  refine After.bind (?_ : After _ s fun h s' => ∀ h', h = some h' → h' = 0x1000 + size ∧
    ∃ b k t', Grows s t size (size + incr.toNat) b k s' t') fun h s' given => After.pure ⟨rfl, given⟩
  refine After.step (get_runs s) ?_
  have bits : PTE_PA (PTE_NORMAL ||| PTE_U ||| PTE_UXN ||| PTE_PXN) = 0#64 := by decide
  have loop := allocPages_after bits (size + incr.toNat) (s.kmem.free + 1)
    (Growing.start owned (1 + b)) pages (fun j lt => absurd lt j.not_lt_zero) (by decide)
    (by simp only [PAGESIZE] at *; omega) (by simp only [PAGESIZE] at *; omega)
  refine loop.bind ?_
  intro done s' ended
  cases done with
  | false => exact After.pure nofun
  | true =>
    obtain ⟨k, t', covers, needed, growing⟩ := ended rfl
    apply After.pure
    rintro h' ⟨⟩
    exact ⟨rfl, b, k, t', whole, least, covers, needed, growing⟩

end Calls

section Sequence
variable {s s' : Ram} {t t' : PageTable} {size newsz b k x : Nat} {root : PageNo}

/-- The last page of the size is mapped, if the size ends in a page. -/
def Tail (t : PageTable) (size : Nat) : Prop := size % PAGESIZE = 0 ∨ (t.pte ((0x1000 + size) / PAGESIZE * PAGESIZE)).isSome

/-- A call of `sbrk` that has returned an address: the memory before and after it, and the size that it found. -/
structure SbrkCall where
  before : Ram
  size : Nat
  incr : BitVec 32
  start : Nat
  after : Ram

/-- The range that it has returned. -/
def SbrkCall.range (c : SbrkCall) : Span := (c.start, c.incr.toNat)

/-- What others do to memory between two calls, and the process to its pages: its tables are as they were,
and its pages are not taken from it. -/
def Keeps (root : PageNo) (s s' : Ram) : Prop := ∀ t : PageTable, t.name = root → Owned s t → Owned s' t

/-- Calls by a process, one after the other. They have a positive increment and return an address, and the image
stays below the stack. -/
inductive Sbrks (root : PageNo) : Ram → Nat → List SbrkCall → Prop
  | nil {s : Ram} {size : Nat} : Sbrks root s size []
  | cons {s : Ram} {size size' : Nat} {c : SbrkCall} {cs : List SbrkCall} : Keeps root s c.before → c.size = size → 0 < c.incr.toInt →
      0x1000 + size + c.incr.toNat ≤ USTACKBOTTOM → sbrk root size c.incr c.before = .ok ((some c.start, size'), c.after) →
      Sbrks root c.after size' cs → Sbrks root s size (c :: cs)

/-- What a call is to do: its range is mapped, and nothing that was mapped is mapped in another way or has other contents. -/
structure SbrkCall.Right (root : PageNo) (c : SbrkCall) : Prop where
  start : c.start = 0x1000 + c.size
  mapped : ∀ x, c.range.Has x → (c.after.word.translate root x).isSome
  kept : ∀ x < 2 ^ 39, ∀ r ∈ c.before.word.translate root x, c.after.word.translate root x = some r
  contents : ∀ n < 2 ^ 27, ∀ page ∈ c.before.word.page root n, c.after.word page = c.before.word page
  once : ∀ n < 2 ^ 27, ∀ m < 2 ^ 27, ∀ page ∈ c.after.word.page root n, page ∈ c.after.word.page root m → n = m

/-- All calls are right. Their ranges are adjacent, from the end of the old size on, and meet neither each other nor
the image. -/
structure SbrksRight (root : PageNo) (image : Set Nat) (size : Nat) (cs : List SbrkCall) : Prop where
  each : ∀ c ∈ cs, c.Right root
  row : Row (0x1000 + size) (cs.map SbrkCall.range)
  apart : (cs.map SbrkCall.range).Pairwise Span.Apart
  outside : ∀ r ∈ cs.map SbrkCall.range, ∀ x ∈ image, ¬ r.Has x

/-- An address is translated when its page is mapped. -/
theorem Owned.isSome_translate (h : Owned s t) (x : Nat) : (s.word.translate t.name x).isSome = (t.pte (x / PAGESIZE * PAGESIZE)).isSome := by
  rw [h.holds.translate, Option.isSome_map]
  apply congrArg
  apply t.pte_page
  rw [Nat.mul_div_cancel _ (by decide)]

namespace Grows

theorem tail_mapped (h : Grows s t size newsz b k s' t') (low : 0x1000 + newsz ≤ 2 ^ 39) (tail : Tail t size) (ge : 0x1000 + size ≤ x)
    (lt : x < 0x1000 + newsz) : (t'.pte (x / PAGESIZE * PAGESIZE)).isSome := by
  have whole := h.whole
  have least := h.least
  have covers := h.covers
  have below : x / PAGESIZE < 1 + b + k := by
    simp only [PAGESIZE] at *
    omega
  rcases Nat.lt_or_ge (x / PAGESIZE) (1 + b) with old | new
  · -- the page is the last one of the old size
    have same : x / PAGESIZE = (0x1000 + size) / PAGESIZE := by
      simp only [PAGESIZE] at *
      omega
    rcases tail with exact | there
    · simp only [PAGESIZE] at *
      omega
    · rw [h.growing.kept _ (by simp only [PAGESIZE]; omega) (by omega), same]
      exact there
  · exact h.growing.mapped _ new below

theorem tail_of_mapped (h : Grows s t size newsz b k s' t') (low : 0x1000 + size < 2 ^ 39)
    (there : (t'.pte ((0x1000 + size) / PAGESIZE * PAGESIZE)).isSome) : Tail t size := by
  rcases Nat.eq_zero_or_pos (size % PAGESIZE) with exact | part
  · exact .inl exact
  · have whole := h.whole
    have old : (0x1000 + size) / PAGESIZE < 1 + b := by
      simp only [PAGESIZE] at *
      omega
    rw [h.growing.kept _ (by simp only [PAGESIZE]; omega) (by omega)] at there
    exact .inr there

/-- The last page of the new size is mapped in turn. -/
theorem next (h : Grows s t size newsz b k s' t') (low : 0x1000 + newsz ≤ 2 ^ 39) (grows : size < newsz) (tail : Tail t size) : Tail t' newsz := by
  rcases Nat.eq_zero_or_pos (newsz % PAGESIZE) with exact | part
  · exact .inl exact
  right
  -- its page is that of the last byte
  rw [show (0x1000 + newsz) / PAGESIZE = (0x1000 + (newsz - 1)) / PAGESIZE by simp only [PAGESIZE] at *; omega]
  exact h.tail_mapped low tail (by omega) (by omega)

/-- What is mapped behind the pages of the old size is behind those of the new one. -/
theorem beyond (h : Grows s t size newsz b k s' t') (ge : (1 + b) * PAGESIZE ≤ x) (there : (t.pte (x / PAGESIZE * PAGESIZE)).isSome) :
    (1 + (b + k)) * PAGESIZE ≤ x := by
  have page := (Nat.le_div_iff_mul_le (by decide)).2 ge
  apply (Nat.le_div_iff_mul_le (by decide)).1
  by_contra before
  rw [h.growing.new _ page (by omega)] at there
  cases there

/-- A call that has found the last page of its size mapped. -/
theorem right {c : SbrkCall} (owned : Owned c.before t) (start : c.start = 0x1000 + c.size) (low : 0x1000 + c.size + c.incr.toNat ≤ 2 ^ 39)
    (tail : Tail t c.size) (h : Grows c.before t c.size (c.size + c.incr.toNat) b k c.after t') : c.Right t.name := by
  have name := h.growing.name
  have owned' := h.growing.owned
  refine ⟨start, ?_, ?_, ?_, ?_⟩
  · intro x has
    have least : c.start ≤ x := has.1
    have most : x < c.start + c.incr.toNat := has.2
    rw [← name, owned'.isSome_translate]
    exact h.tail_mapped (by omega) tail (by omega) (by omega)
  · intro x lt r mem
    rw [owned.holds.translate] at mem
    obtain ⟨pte, entry, rfl⟩ := Option.map_eq_some_iff.1 mem
    have page : x / PAGESIZE < 2 ^ 27 := Nat.div_lt_of_lt_mul lt
    have start : x / PAGESIZE = x / PAGESIZE * PAGESIZE / PAGESIZE := (Nat.mul_div_cancel _ (by decide)).symm
    rw [t.pte_page start] at entry
    rw [← name, owned'.holds.translate, t'.pte_page start, h.growing.old_pte page entry]
    rfl
  · intro n lt page mem
    rw [owned.page] at mem
    obtain ⟨pte, entry, rfl⟩ := Option.map_eq_some_iff.1 mem
    exact h.growing.words n lt pte entry
  · intro n lt m lt' page mem mem'
    rw [← name, owned'.page] at mem mem'
    obtain ⟨pte, entry, rfl⟩ := Option.map_eq_some_iff.1 mem
    obtain ⟨pte', entry', same⟩ := Option.map_eq_some_iff.1 mem'
    exact PageTable.leaf_inj (Multiset.nodup_add.1 owned'.apart).2.1 lt lt' entry entry' same.symm

end Grows

namespace Sbrks
variable {c : SbrkCall} {cs : List SbrkCall} {image : Set Nat}

/-- The first call, and those behind it. -/
theorem uncons (h : Sbrks root s size (c :: cs)) (owned : Owned s t) (name : t.name = root) : Owned c.before t ∧ c.size = size ∧ c.start = 0x1000 + size ∧
    0 < c.incr.toNat ∧ 0x1000 + size + c.incr.toNat ≤ USTACKBOTTOM ∧ Sbrks root c.after (size + c.incr.toNat) cs ∧
      ∃ b k t', Grows c.before t size (size + c.incr.toNat) b k c.after t' := by
  cases h with
  | cons keeps same pos below run rest =>
    have owned' := keeps t name owned
    rw [← name] at run
    obtain ⟨size', given⟩ := sbrk_after owned' pos below _ _ run
    obtain ⟨start, grows⟩ := given _ rfl
    have some : 0 < c.incr.toNat := by
      by_contra none
      rw [BitVec.eq_of_toNat_eq (y := 0#32) (Nat.eq_zero_of_not_pos none)] at pos
      cases pos
    simp only at size'
    rw [size'] at rest
    exact ⟨owned', same, start, some, below, rest, grows⟩

theorem row (h : Sbrks root s size cs) (owned : Owned s t) (name : t.name = root) : Row (0x1000 + size) (cs.map SbrkCall.range) := by
  induction cs generalizing s t size with
  | nil => trivial
  | cons c cs ih =>
    obtain ⟨-, -, start, -, -, rest, b, k, t', grows⟩ := h.uncons owned name
    refine ⟨start, ?_⟩
    have row := ih rest grows.growing.owned (grows.growing.name.trans name)
    rwa [← Nat.add_assoc] at row

/-- What was mapped behind the pages of the old size is behind all ranges. -/
theorem beyond (h : Sbrks root s size cs) (owned : Owned s t) (name : t.name = root) (whole : size ≤ b * PAGESIZE) (ge : (1 + b) * PAGESIZE ≤ x)
    (lt : x < 2 ^ 39) (there : (t.pte (x / PAGESIZE * PAGESIZE)).isSome) : 0x1000 + size + ((cs.map SbrkCall.range).map Prod.snd).sum ≤ x := by
  induction cs generalizing s t size b with
  | nil =>
    rw [List.map_nil, List.map_nil, List.sum_nil]
    simp only [PAGESIZE] at *
    omega
  | cons c cs ih =>
    obtain ⟨-, -, -, -, -, rest, b', k, t', grows⟩ := h.uncons owned name
    have least := grows.least
    have few : b' ≤ b := by
      simp only [PAGESIZE] at least whole
      omega
    have before : (1 + b') * PAGESIZE ≤ x := (Nat.mul_le_mul_right _ (by omega)).trans ge
    obtain ⟨pte, entry⟩ := Option.isSome_iff_exists.1 there
    have kept := grows.growing.old_pte (Nat.div_lt_of_lt_mul lt) entry
    have last := ih rest grows.growing.owned (grows.growing.name.trans name) grows.covers (grows.beyond before there) (by rw [kept]; rfl)
    rw [List.map_cons, List.map_cons, List.sum_cons, SbrkCall.range]
    omega

/-- **Every call of a run is right** that begins with the last page mapped. -/
theorem each (h : Sbrks root s size cs) (owned : Owned s t) (name : t.name = root) (tail : Tail t size) : ∀ c ∈ cs, c.Right root := by
  induction cs generalizing s t size with
  | nil => nofun
  | cons c cs ih =>
    obtain ⟨owned', same, start, some, below, rest, b, k, t', grows⟩ := h.uncons owned name
    have top : USTACKBOTTOM ≤ 2 ^ 39 := by decide
    have low := below.trans top
    refine List.forall_mem_cons.2 ⟨?_, ?_⟩
    · rw [← name]
      rw [← same] at grows start low tail
      exact grows.right owned' start low tail
    · exact ih rest grows.growing.owned (grows.growing.name.trans name) (grows.next (by omega) (by omega) tail)

end Sbrks

/-- **Calls of `sbrk`.** -/
theorem sbrks_right_iff {cs : List SbrkCall} {image : Set Nat} (owned : Owned s t) (mapped : ∀ x ∈ image, x < 2 ^ 39 ∧ (s.word.translate t.name x).isSome)
    (run : Sbrks t.name s size cs) : SbrksRight t.name image size cs ↔
      cs = [] ∨ (size % PAGESIZE = 0 ∨ (s.word.translate t.name (0x1000 + size)).isSome) ∧
        ∀ x ∈ image, 0x1000 + size ≤ x → x < 0x1000 + PAGEROUNDUP size → 0x1000 + size + (cs.map fun c => c.incr.toNat).sum ≤ x := by
  have total : ((cs.map SbrkCall.range).map Prod.snd).sum = (cs.map fun c => c.incr.toNat).sum := by
    rw [List.map_map]
    rfl
  have row := run.row owned rfl
  have covered := fun x => row.has_iff (x := x)
  rw [total] at covered
  cases cs with
  | nil => exact iff_of_true ⟨nofun, trivial, .nil, nofun⟩ (.inl rfl)
  | cons c cs =>
  obtain ⟨owned', same, start, some, below, rest, b, k, t', grows⟩ := run.uncons owned rfl
  have top : USTACKBOTTOM ≤ 2 ^ 39 := by decide
  rw [or_iff_right (List.cons_ne_nil _ _), owned.isSome_translate]
  constructor
  · intro right
    constructor
    · have first := (right.each c List.mem_cons_self).mapped (0x1000 + size) ⟨start.le, by rw [SbrkCall.range, start]; omega⟩
      rw [← grows.growing.name, grows.growing.owned.isSome_translate] at first
      exact grows.tail_of_mapped (by omega) first
    · intro x mem ge _
      by_contra before
      obtain ⟨r, mem', has⟩ := (covered x).2 ⟨ge, not_le.1 before⟩
      exact right.outside r mem' x mem has
  · rintro ⟨tail, image_below⟩
    refine ⟨run.each owned rfl tail, row, row.apart, ?_⟩
    intro r mem' x mem has
    obtain ⟨ge, lt⟩ := (covered x).1 ⟨r, mem', has⟩
    obtain ⟨small, there⟩ := mapped x mem
    rw [owned.isSome_translate] at there
    rcases Nat.lt_or_ge x (0x1000 + PAGEROUNDUP size) with last | behind
    · exact absurd (image_below x mem ge last) (not_le.2 lt)
    · have half : size ≤ 2 ^ 63 := by omega
      obtain ⟨b, round, whole, -⟩ := PAGEROUNDUP_least half
      have beyond := run.beyond owned rfl whole (by rw [Nat.add_mul, Nat.one_mul, ← round]; exact behind) small there
      rw [total] at beyond
      omega

/-- A process without an image grows by 1000 bytes, and by one more. -/
theorem heap_sbrks_right : ∃ cs, Sbrks 0x40000 stackRam 0 cs ∧ cs.map SbrkCall.range = [(0x1000, 1000), (0x13e8, 1)] ∧ SbrksRight 0x40000 ∅ 0 cs := by
  have name : stackTable.name = 0x40000 := stack_becomes.1.name
  have passes : (sbrk 0x40000 0 1000#32 stackRam).toOption.any (fun r => decide (r.1 = (some 0x1000, 1000))) = true := by decide +kernel
  obtain ⟨_, s₁, run₁, shown⟩ := ok_of_any passes
  obtain rfl := of_decide_eq_true shown
  have run₂ : sbrk 0x40000 1000 1#32 s₁ = .ok ((some 0x13e8, 1001), s₁) := rfl
  have run : Sbrks 0x40000 stackRam 0 [⟨stackRam, 0, 1000#32, 0x1000, s₁⟩, ⟨s₁, 1000, 1#32, 0x13e8, s₁⟩] := by
    refine .cons (fun t _ owned => owned) rfl ?_ ?_ run₁ (.cons (fun t _ owned => owned) rfl ?_ ?_ run₂ .nil)
    all_goals
      dsimp only
      decide
  rw [← name] at run ⊢
  refine ⟨_, run, rfl, ?_⟩
  exact (sbrks_right_iff stack_space.toOwned (fun x mem => mem.elim) run).2 (.inr ⟨.inl rfl, fun x mem => mem.elim⟩)

/-- A segment of 256 bytes that is not at `0x1000`, and memory with its page and the stack. -/
def segment : Phdr := { p_type := PT_LOAD, p_vaddr := 0x5000, p_memsz := 0x100, p_filesz := 0, reads := fun _ => true }
def segmentRam : Ram :=
  match allocPages (PTE_NORMAL ||| PTE_U) segment.p_memsz 2 0x40000 segment.p_vaddr 0 stackRam with
  | .ok r => r.2
  | .error _ => stackRam

theorem segment_owned : ∃ t : PageTable, t.name = 0x40000 ∧ Owned segmentRam t := by
  have name : stackTable.name = 0x40000 := stack_becomes.1.name
  have passes : (allocPages (PTE_NORMAL ||| PTE_U) 0x100 2 0x40000 0x5000 0 stackRam).toOption.any (fun r => r.1) = true := by decide +kernel
  obtain ⟨done, s', run, shown⟩ := ok_of_any passes
  have same : segmentRam = s' := by
    rw [segmentRam, show segment.p_memsz = 0x100 from rfl, show segment.p_vaddr = 0x5000 from rfl, run]
  rw [same]
  rw [← name] at run
  have pages : ∀ j, (0 + j) * PAGESIZE < 0x100 → 5 + j < 2 ^ 27 ∧ 0 + j < 2 ^ 27 := by
    intro j more
    simp only [PAGESIZE] at more
    omega
  obtain ⟨r, t, -, -, growing⟩ := allocPages_after (b := 0) (by decide) 0x100 2 (Growing.start stack_space.toOwned 5) pages
    (fun j lt => absurd lt j.not_lt_zero) (by decide) (by decide) (by decide) _ _ run shown
  exact ⟨t, growing.name.trans name, growing.owned⟩

/-- `exec` takes an executable with this segment. The size is 256, and `sbrk` returns an address that is not mapped. -/
theorem sbrk_returns_unmapped : (∃ t k, execSpace stackTable 0 (some [some segment]) [] { freelist := List.range' 0x40100 8, held := false } = .ok ((0, some (t, 0x100)), k)) ∧
    (∃ t : PageTable, t.name = 0x40000 ∧ Owned segmentRam t) ∧ Sbrks 0x40000 segmentRam 0x100 [⟨segmentRam, 0x100, 16#32, 0x1100, segmentRam⟩] ∧
      ¬ SbrksRight 0x40000 ∅ 0x100 [⟨segmentRam, 0x100, 16#32, 0x1100, segmentRam⟩] := by
  have passes : (execSpace stackTable 0 (some [some segment]) [] { freelist := List.range' 0x40100 8, held := false }).toOption.any
      (fun r => decide (r.1.1 = 0 ∧ r.1.2.map Prod.snd = some 0x100)) = true := by decide +kernel
  refine ⟨?_, segment_owned, ?_, ?_⟩
  · obtain ⟨⟨code, new⟩, k, run, shown⟩ := ok_of_any passes
    obtain ⟨zero, size⟩ := of_decide_eq_true shown
    obtain ⟨⟨t, _⟩, rfl, rfl⟩ := Option.map_eq_some_iff.1 size
    obtain rfl := zero
    exact ⟨t, k, run⟩
  · refine .cons (fun t _ owned => owned) rfl ?_ ?_ rfl .nil
    all_goals
      dsimp only
      decide
  · intro right
    have mapped := (right.each _ List.mem_cons_self).mapped 0x1100 ⟨Nat.le_refl _, by decide⟩
    have unmapped : (segmentRam.word.translate 0x40000 0x1100).isSome = false := by decide +kernel
    rw [show (SbrkCall.after _).word.translate 0x40000 0x1100 = segmentRam.word.translate 0x40000 0x1100 from rfl, unmapped] at mapped
    cases mapped

end Sequence

end Aarch64Os.Kernel.Words
