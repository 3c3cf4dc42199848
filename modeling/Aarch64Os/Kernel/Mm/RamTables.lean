import Aarch64Os.Base.Lockstep
import Aarch64Os.Kernel.Mm.PageNames
import Aarch64Os.Kernel.Mm.Ram

/-!
# The words of a page table (`kernel/mm.c`)

Which words of memory make up a page table, and that the functions on the words do to them what those
on the tables say. Tables share no page, and none of theirs is free: so a word that is written is an
entry of one table, and a page that is cleared is none.
-/

namespace Aarch64Os.Kernel.Words
set_option autoImplicit false
open Base

section Bits
variable {w attr : BitVec 64} {page pa : Nat}

theorem PTE_PA_or (v w : BitVec 64) : PTE_PA (v ||| w) = PTE_PA v ||| PTE_PA w := BitVec.and_or_distrib_right

theorem PTE_PA_PTE_PA (w : BitVec 64) : PTE_PA (PTE_PA w) = PTE_PA w := by
  unfold PTE_PA
  rw [BitVec.and_assoc, BitVec.and_self]

/-- The bits 12 to 47. -/
theorem PTE_PA_toNat (w : BitVec 64) : (PTE_PA w).toNat = w.toNat / PAGESIZE % 2 ^ 36 * PAGESIZE := by
  have mask : (0xfffffffff000#64).toNat = (2 ^ 36 - 1) <<< 12 := by decide
  have shifted : w.toNat &&& (2 ^ 36 - 1) <<< 12 = (w.toNat >>> 12 &&& 2 ^ 36 - 1) <<< 12 := by
    apply Nat.eq_of_testBit_eq
    intro i
    simp only [Nat.testBit_and, Nat.testBit_shiftLeft, Nat.testBit_shiftRight]
    by_cases le : 12 ≤ i
    · simp [le, Nat.add_sub_cancel' le]
    · simp [le]
  rw [PTE_PA, BitVec.toNat_and, mask, shifted, Nat.and_two_pow_sub_one_eq_mod, Nat.shiftRight_eq_div_pow, Nat.shiftLeft_eq]

theorem pageOf_eq (w : BitVec 64) : pageOf w = w.toNat / PAGESIZE % 2 ^ 36 := by
  rw [pageOf, PTE_PA_toNat, Nat.mul_div_cancel _ (by decide)]

theorem pageOf_PTE_PA (w : BitVec 64) : pageOf (PTE_PA w) = pageOf w := by
  rw [pageOf, PTE_PA_PTE_PA]
  rfl

/-- Only the address bits matter. -/
theorem pageOf_or (h : PTE_PA attr = 0#64) : pageOf (w ||| attr) = pageOf w := by
  rw [pageOf, PTE_PA_or, h, BitVec.or_zero]
  rfl

theorem isTable_tableEntry (page : PageNo) : isTable (tableEntry page) = true := by
  have valid : tableEntry page &&& PTE_VALID = PTE_VALID := by
    unfold tableEntry PTE_PA
    rw [BitVec.and_or_distrib_right, BitVec.and_or_distrib_right, BitVec.and_assoc]
    have mask : 0xfffffffff000#64 &&& PTE_VALID = 0#64 := by decide
    have other : PTE_TABLE &&& PTE_VALID = 0#64 := by decide
    rw [mask, other, BitVec.and_self]
    simp
  have table : tableEntry page &&& PTE_TABLE = PTE_TABLE := by
    unfold tableEntry PTE_PA
    rw [BitVec.and_or_distrib_right, BitVec.and_or_distrib_right, BitVec.and_assoc]
    have mask : 0xfffffffff000#64 &&& PTE_TABLE = 0#64 := by decide
    have other : PTE_VALID &&& PTE_TABLE = 0#64 := by decide
    rw [mask, other, BitVec.and_self]
    simp
  unfold isTable
  rw [valid, table]
  decide

theorem pageOf_tableEntry (low : page < 2 ^ 36) : pageOf (tableEntry page) = page := by
  unfold tableEntry
  rw [pageOf_or (by decide), pageOf_or (by decide), pageOf_PTE_PA, pageOf_eq, BitVec.toNat_ofNat]
  have high : page * 4096 % 2 ^ 64 / 4096 % 2 ^ 36 = page := by omega
  exact high

/-- A table is told from a page by this bit. -/
theorem tableEntry_af (page : PageNo) : tableEntry page &&& PTE_AF = 0#64 := by
  unfold tableEntry PTE_PA
  rw [BitVec.and_or_distrib_right, BitVec.and_or_distrib_right, BitVec.and_assoc]
  have mask : 0xfffffffff000#64 &&& PTE_AF = 0#64 := by decide
  have table : PTE_TABLE &&& PTE_AF = 0#64 := by decide
  have valid : PTE_VALID &&& PTE_AF = 0#64 := by decide
  rw [mask, table, valid]
  simp

theorem leafEntry_af (pa : Nat) (attr : BitVec 64) : leafEntry pa attr &&& PTE_AF ≠ 0#64 := by
  intro zero
  have bit := congrArg (fun w : BitVec 64 => w.getLsbD 10) zero
  simp [leafEntry, PTE_AF] at bit

theorem leafEntry_ne (pa : Nat) (attr : BitVec 64) : leafEntry pa attr ≠ 0#64 := by
  intro zero
  exact leafEntry_af pa attr (by rw [zero, BitVec.zero_and])

theorem leafEntry_v (pa : Nat) (attr : BitVec 64) : leafEntry pa attr &&& PTE_V = PTE_V := by
  unfold leafEntry
  rw [BitVec.and_or_distrib_right, BitVec.and_self]
  generalize (PTE_PA (BitVec.ofNat 64 pa) ||| PTE_AF ||| attr) = w
  apply BitVec.eq_of_getElem_eq
  intro i lt
  simp only [BitVec.getElem_or, BitVec.getElem_and]
  cases PTE_V[i] <;> simp

theorem pageOf_leafEntry (h : PTE_PA attr = 0#64) : pageOf (leafEntry pa attr) = pa / PAGESIZE % 2 ^ 36 := by
  unfold leafEntry
  rw [pageOf_or (by decide), pageOf_or h, pageOf_or (by decide), pageOf_PTE_PA, pageOf_eq, BitVec.toNat_ofNat]
  have high : pa % 2 ^ 64 / 4096 % 2 ^ 36 = pa / 4096 % 2 ^ 36 := by omega
  exact high

/-- The bits of an entry that are no address. -/
theorem leafEntry_attr (h : PTE_PA attr = 0#64) : leafEntry pa attr &&& ~~~0xfffffffff000#64 = PTE_AF ||| attr ||| PTE_V := by
  have address : PTE_PA (BitVec.ofNat 64 pa) &&& ~~~0xfffffffff000#64 = 0#64 := by
    rw [PTE_PA, BitVec.and_assoc, show 0xfffffffff000#64 &&& ~~~0xfffffffff000#64 = 0#64 by decide, BitVec.and_zero]
  have kept : attr &&& ~~~0xfffffffff000#64 = attr := by
    have parts : attr = PTE_PA attr ||| (attr &&& ~~~0xfffffffff000#64) := by
      rw [PTE_PA, ← BitVec.and_or_distrib_left, show 0xfffffffff000#64 ||| ~~~0xfffffffff000#64 = BitVec.allOnes 64 by decide,
        BitVec.and_allOnes]
    rw [h, BitVec.zero_or] at parts
    exact parts.symm
  unfold leafEntry
  rw [BitVec.and_or_distrib_right, BitVec.and_or_distrib_right, BitVec.and_or_distrib_right, address, kept, BitVec.zero_or]
  congr 1

/-- An entry depends on the page of the address. -/
theorem leafEntry_page (pa : Nat) (attr : BitVec 64) : leafEntry (pa / PAGESIZE % 2 ^ 36 * PAGESIZE) attr = leafEntry pa attr := by
  have same : PTE_PA (BitVec.ofNat 64 (pa / PAGESIZE % 2 ^ 36 * PAGESIZE)) = PTE_PA (BitVec.ofNat 64 pa) := by
    apply BitVec.eq_of_toNat_eq
    rw [PTE_PA_toNat, PTE_PA_toNat, BitVec.toNat_ofNat, BitVec.toNat_ofNat]
    simp only [PAGESIZE]
    omega
  unfold leafEntry
  rw [same]

end Bits

/-- The word of a third-level entry. -/
def pteWord (pte : Pte) : BitVec 64 := leafEntry (pte.page * PAGESIZE) pte.attr

theorem pteWord_ne (pte : Pte) : pteWord pte ≠ 0#64 := leafEntry_ne _ _

theorem pteWord_af (pte : Pte) : pteWord pte &&& PTE_AF ≠ 0#64 := leafEntry_af _ _

/-- An entry has bits for the page and the attributes. -/
structure Fits (pte : Pte) : Prop where
  page : pte.page < 2 ^ 36
  attr : PTE_PA pte.attr = 0#64

/-- The page of a table has the entries that the table says: `clear` words where it says nothing, and
the others are those of what is behind them, of which `behind` holds. -/
def Shows {α : Type} (word : Memory) (clear : BitVec 64 → Prop) (entry : α → BitVec 64) (behind : α → Prop)
    (t : Table (Fin 512) PageNo α) : Prop :=
  ∀ i, (t.entry i).elim (clear (word t.name i)) fun x => word t.name i = entry x ∧ behind x

/-- The words that may stand in a table where it has no table behind it. -/
structure Clear where
  holds : BitVec 64 → Prop
  zero : holds 0#64
  no_table : ∀ w, holds w → isTable w = false

/-- A user table has zeros there. -/
def Clear.user : Clear where
  holds w := w = 0#64
  zero := rfl
  no_table w zero := by
    rw [zero]
    decide

/-- That of the kernel has blocks. -/
def Clear.kernel : Clear where
  holds w := isTable w = false
  zero := by decide
  no_table _ h := h

/-- The page of an entry. -/
theorem Fits.pageOf {pte : Pte} (fits : Fits pte) : pageOf (pteWord pte) = pte.page := by
  rw [pteWord, pageOf_leafEntry fits.attr, Nat.mul_div_cancel _ (by decide), Nat.mod_eq_of_lt fits.page]

section Shows
variable {α : Type} {word word' : Memory} {clear : BitVec 64 → Prop} {entry : α → BitVec 64} {behind behind' : α → Prop}
  {t : Table (Fin 512) PageNo α}

/-- Only the words of the table matter. -/
theorem Shows.congr (h : Shows word clear entry behind t) (own : word' t.name = word t.name)
    (rest : ∀ i x, t.entry i = some x → behind x → behind' x) : Shows word' clear entry behind' t := by
  intro i
  have here := h i
  rw [own]
  cases there : t.entry i with
  | none =>
    rw [there] at here
    exact here
  | some x =>
    rw [there] at here
    exact ⟨here.1, rest i x there here.2⟩

/-- One word is written. -/
theorem Shows.put (h : Shows word clear entry behind t) {i : Fin 512} {w : BitVec 64} {y : Option α}
    (own : word' t.name = Function.update (word t.name) i w) (new : y.elim (clear w) fun x => w = entry x ∧ behind' x)
    (rest : ∀ j x, j ≠ i → t.entry j = some x → behind x → behind' x) : Shows word' clear entry behind' (t.put i y) := by
  intro j
  rw [Table.put_name, own]
  rcases eq_or_ne j i with rfl | ne
  · rw [Table.put_self, Function.update_self]
    exact new
  · rw [Table.put_ne _ _ ne, Function.update_of_ne ne]
    have here := h j
    cases there : t.entry j with
    | none =>
      rw [there] at here
      exact here
    | some x =>
      rw [there] at here
      exact ⟨here.1, rest j x ne there here.2⟩

/-- An empty table is a page of zeros. -/
theorem shows_empty {name : PageNo} (zero : clear 0#64) (zeros : word name = fun _ => 0#64) :
    Shows word clear entry behind (Table.empty name) := by
  intro i
  rw [Table.empty_entry, Table.empty_name, zeros]
  exact zero

end Shows

/-- Where all pages of a table are as they were, its own is. -/
theorem own_page {β : Type} {sub : β → Multiset PageNo} {t : Table (Fin 512) PageNo β} {word word' : Memory}
    (same : ∀ page ∈ t.names sub, word' page = word page) : word' t.name = word t.name := same _ (Table.name_mem sub t)

/-- So is what is behind an entry. -/
theorem behind_pages {β : Type} {sub : β → Multiset PageNo} {t : Table (Fin 512) PageNo β} {word word' : Memory} {i : Fin 512} {x : β}
    (same : ∀ page ∈ t.names sub, word' page = word page) (entry : t.entry i = some x) : ∀ page ∈ sub x, word' page = word page :=
  fun page mem => same page (Multiset.mem_of_le (Table.sub_le_names entry) mem)

/-- A level of tables: the pages that are behind an entry of one, and that the words of the table are in
memory, which only depends on its pages and is true of an empty page. -/
structure Level (β : Type) where
  sub : β → Multiset PageNo
  shown : Memory → Table (Fin 512) PageNo β → Prop
  frame : ∀ {word word' t}, shown word t → (∀ page ∈ t.names sub, word' page = word page) → shown word' t
  fresh : ∀ {word page}, (word page = fun _ => 0#64) → shown word (Table.empty page)

/-- The third level. -/
def Level.third : Level Pte where
  sub _ := 0
  shown word l3 := Shows word (· = 0#64) pteWord Fits l3
  frame {word word' t} h same := by
    refine Shows.congr h (own_page same) ?_
    intro i x entry fits
    exact fits
  fresh zeros := shows_empty rfl zeros

/-- The level above one. -/
def Level.above {β : Type} (clear : Clear) (L : Level β) : Level (Table (Fin 512) PageNo β) where
  sub := Table.names L.sub
  shown word t := Shows word clear.holds (fun x => tableEntry x.name) (fun x => x.name < 2 ^ 36 ∧ L.shown word x) t
  frame {word word' t} h same := by
    refine Shows.congr h (own_page same) ?_
    rintro i x entry ⟨low, shown⟩
    exact ⟨low, L.frame shown (behind_pages same entry)⟩
  fresh zeros := shows_empty clear.zero zeros

/-- The second level, and the first. -/
def Level.second (clear : Clear) : Level Level3 := Level.third.above clear
def Level.first (clear : Clear) : Level Level2 := (Level.second clear).above clear

/-- What is behind an entry is replaced in its place. -/
theorem Level.replace {β : Type} {clear : Clear} {L : Level β} {word word' : Memory} {t : Table (Fin 512) PageNo (Table (Fin 512) PageNo β)}
    {i : Fin 512} {x x' : Table (Fin 512) PageNo β} (shown : (L.above clear).shown word t) (nodup : (t.names (Table.names L.sub)).Nodup)
    (entry : t.entry i = some x) (name : x'.name = x.name) (new : L.shown word' x')
    (frame : ∀ page ∈ t.names (Table.names L.sub), page ∉ x.names L.sub → word' page = word page) :
    (L.above clear).shown word' (t.put i (some x')) := by
  have here := shown i
  rw [entry] at here
  obtain ⟨old, small, -⟩ := here
  refine Shows.put shown (i := i) (w := tableEntry x.name) ?_ ?_ ?_
  · rw [frame _ (Table.name_mem ..) (Table.name_not_mem nodup entry)]
    exact Function.eq_update_iff.2 ⟨old, fun _ _ => rfl⟩
  · rw [Option.elim_some, name]
    exact ⟨rfl, small, new⟩
  · rintro j y ne other ⟨small', shown'⟩
    refine ⟨small', L.frame shown' ?_⟩
    intro page mem
    apply frame page (Multiset.mem_of_le (Table.sub_le_names other) mem)
    intro mem'
    exact ne (Table.entry_inj nodup other entry mem mem')

/-- Memory holds a page table: its words are there, and neither is a page in two of its tables nor a free
one in any. -/
structure Holds (s : Ram) (clear : Clear) (t : PageTable) : Prop where
  shows : (Level.first clear).shown s.word t
  apart : (s.kmem.pool + t.tablePages).Nodup
  low : ∀ page ∈ s.kmem.freelist, page < 2 ^ 36

section Machine
variable {s : Ram}

/-- A function of the allocator that does something to the words besides. -/
theorem lockstep_map {α : Type} {f : MmM α} {h : RamM α} {g : α → Memory}
    (run : h s = (f s.kmem).map fun r => (r.1, { kmem := r.2, word := g r.1 })) :
    Lockstep h s f s.kmem fun a s' a' k => a = a' ∧ s'.kmem = k ∧ s'.word = g a := by
  constructor
  · intro e
    rw [run]
    cases f s.kmem with
    | error e' => simp [Except.map]
    | ok r => simp [Except.map]
  · intro a s' a' k machine model
    rw [run, model] at machine
    cases machine
    exact ⟨rfl, rfl, rfl⟩

theorem kalloc_lockstep (s : Ram) : Lockstep kalloc s Kernel.kalloc s.kmem fun page s' page' k => page = page' ∧ s'.kmem = k ∧
    s'.word = page.elim s.word fun page => Function.update s.word page fun _ => 0#64 :=
  lockstep_map rfl

/-- What `kalloc` has done when it returns. -/
theorem kalloc_words (s : Ram) : After kalloc s fun page s' => (page = none ∧ s'.kmem.held = true ∧ s'.kmem.freelist = s.kmem.freelist ∧
    s'.word = s.word) ∨ ∃ new, page = some new ∧ s.kmem.pool = new ::ₘ s'.kmem.pool ∧ s.kmem.freelist = new :: s'.kmem.freelist ∧
      s'.kmem.held = s.kmem.held ∧ s'.word = Function.update s.word new fun _ => 0#64 := by
  intro page s' run
  obtain ⟨_, k, run', rfl, rfl, words⟩ := (kalloc_lockstep s).returned run
  rcases kalloc_after s.kmem _ _ run' with ⟨rfl, held, same⟩ | ⟨new, rfl, list, held⟩
  · exact .inl ⟨rfl, held, same, words⟩
  · refine .inr ⟨new, rfl, ?_, list, held, words⟩
    rw [Kallocator.pool, list]
    rfl

theorem kfree_lockstep (page : PageNo) (s : Ram) : Lockstep (kfree page) s (Kernel.kfree page) s.kmem fun _ s' _ k =>
    s'.kmem = k ∧ ∀ other, other ≠ page → s'.word other = s.word other := by
  apply (lockstep_map (h := kfree page) (g := fun _ =>
    Function.update s.word page fun i => if i = 0 then s.kmem.freelist.head?.elim 0#64 P2V else 0#64) rfl).mono
  rintro _ s' _ k ⟨-, rfl, words⟩
  refine ⟨rfl, ?_⟩
  intro other ne
  rw [words, Function.update_of_ne ne]

theorem setEntry_runs (s : Ram) (pgt : PageNo) (i : Fin 512) (w : BitVec 64) : setEntry pgt i w s = .ok ((), s.set pgt i w) := rfl

theorem setPage_runs (s : Ram) (page : PageNo) (words : Fin 512 → BitVec 64) : setPage page words s = .ok ((), s.fill page words) := rfl

end Machine

section Walk
variable {s s' : Ram} {clear : Clear} {t : PageTable} {va : Nat}

/-- What a round of `pagewalk` leaves, the table `next` behind entry `i`: the words of both, and no other
page has changed but the one of the table and a new one. -/
structure Round {β : Type} (L : Level β) (clear : Clear) (t : Table (Fin 512) PageNo (Table (Fin 512) PageNo β)) (i : Fin 512) (s : Ram)
    (next : Table (Fin 512) PageNo β) (s' : Ram) : Prop where
  shows : (L.above clear).shown s'.word (t.put i (some next))
  pool : s'.kmem.pool + (t.put i (some next)).names (Table.names L.sub) = s.kmem.pool + t.names (Table.names L.sub)
  frame : ∀ page, page ≠ t.name → page ∉ s.kmem.freelist → s'.word page = s.word page
  suffix : s'.kmem.freelist <:+ s.kmem.freelist

/-- A free page is in no table. -/
theorem free_not_mem {page : PageNo} {pages : Multiset PageNo} (apart : (s.kmem.pool + pages).Nodup) (free : page ∈ s.kmem.freelist) :
    page ∉ pages :=
  fun mem => Multiset.disjoint_left.1 (Multiset.nodup_add.1 apart).2.2 (Multiset.mem_coe.2 free) mem

theorem round_lockstep {β γ : Type} {L : Level β} {t : Table (Fin 512) PageNo (Table (Fin 512) PageNo β)} {level : Nat} {levels : List Nat}
    {g : Option (Table (Fin 512) PageNo β) → MmM γ} {end_ : Option PageNo → Ram → γ → Kallocator → Prop}
    (shows : (L.above clear).shown s.word t) (apart : (s.kmem.pool + t.names (Table.names L.sub)).Nodup)
    (low : ∀ page ∈ s.kmem.freelist, page < 2 ^ 36)
    (missing : ∀ s' : Ram, s'.word = s.word → s'.kmem.freelist = s.kmem.freelist → Lockstep (pure none) s' (g none) s'.kmem end_)
    (found : ∀ next s', Round L clear t (PIDX level va) s next s' →
      Lockstep (walkLevels va levels next.name) s' (g (some next)) s'.kmem end_) :
    Lockstep (walkLevels va (level :: levels) t.name) s (nextTable t (PIDX level va) >>= g) s.kmem end_ := by
  have here := shows (PIDX level va)
  unfold walkLevels nextTable
  apply Lockstep.machine (get_runs s)
  cases entry : t.entry (PIDX level va) with
  | some x =>
    rw [entry] at here
    obtain ⟨word, small, -⟩ := here
    rw [word, isTable_tableEntry, if_pos rfl, pageOf_tableEntry small, pure_bind]
    apply found x s
    have same : t.put (PIDX level va) (some x) = t := by
      rw [← entry, Table.put_entry]
    constructor
    · rw [same]
      exact shows
    · rw [same]
    · exact fun _ _ _ => rfl
    · exact List.suffix_refl _
  | none =>
    rw [entry] at here
    rw [clear.no_table _ here, if_neg (by decide), bind_assoc]
    apply ((kalloc_lockstep s).after (kalloc_after s.kmem)).bind
    rintro page s' _ _ ⟨⟨rfl, rfl, words⟩, ⟨rfl, -, same⟩ | ⟨new, rfl, list, -⟩⟩
    · rw [pure_bind]
      exact missing s' words same
    · rw [pure_bind]
      apply Lockstep.machine (setEntry_runs ..)
      have free : new ∈ s.kmem.freelist := by
        rw [list]
        exact List.mem_cons_self
      have fresh := free_not_mem apart free
      have ne : t.name ≠ new := by
        intro same
        rw [← same] at fresh
        exact fresh (Table.name_mem ..)
      rw [Option.elim_some] at words
      apply found (Table.empty new)
      constructor
      · refine Shows.put shows (i := PIDX level va) (w := tableEntry new) ?_ ⟨rfl, low new free, L.fresh ?_⟩ ?_
        · rw [Ram.set_self, words, Function.update_of_ne ne]
        · rw [Ram.set_ne _ _ _ ne.symm, words, Function.update_self]
        · rintro j x - entry' ⟨small, shown⟩
          refine ⟨small, L.frame shown ?_⟩
          intro page mem
          have behind := Multiset.mem_of_le (Table.sub_le_names entry') mem
          rw [Ram.set_ne, words, Function.update_of_ne]
          · rintro rfl
            exact fresh behind
          · rintro rfl
            have nodup := (Multiset.nodup_add.1 apart).2.1
            exact Table.name_not_mem nodup entry' mem
      · have moved := Table.names_put (Table.names L.sub) t (PIDX level va) (some (Table.empty new))
        rw [entry, Option.elim_none, add_zero, Option.elim_some, Table.names_empty] at moved
        have pool : s.kmem.pool = {new} + s'.kmem.pool := by
          rw [Kallocator.pool, list]
          rfl
        rw [moved, pool, Ram.set_kmem]
        ac_rfl
      · intro page other used
        rw [Ram.set_ne _ _ _ other, words, Function.update_of_ne]
        rintro rfl
        exact used free
      · rw [list]
        exact List.suffix_cons new _

/-- What is behind an entry is in memory, and apart from the free pages. -/
theorem Round.behind {β : Type} {L : Level β} {t : Table (Fin 512) PageNo (Table (Fin 512) PageNo β)} {i : Fin 512}
    {next : Table (Fin 512) PageNo β} (h : Round L clear t i s next s') (apart : (s.kmem.pool + t.names (Table.names L.sub)).Nodup) :
    L.shown s'.word next ∧ (s'.kmem.pool + next.names L.sub).Nodup := by
  have here := h.shows i
  rw [Table.put_self] at here
  rw [← h.pool] at apart
  refine ⟨here.2.2, Multiset.nodup_of_le (add_le_add_right (Table.sub_le_names (Table.put_self t i (some next))) _) apart⟩

/-- The table `t` has become `t'`, which may have taken free pages. None has changed but those of the
table and the free ones. -/
structure Becomes (s : Ram) (clear : Clear) (t : PageTable) (s' : Ram) (t' : PageTable) : Prop where
  holds : Holds s' clear t'
  name : t'.name = t.name
  pool : s'.kmem.pool + t'.tablePages = s.kmem.pool + t.tablePages
  suffix : s'.kmem.freelist <:+ s.kmem.freelist
  frame : ∀ page, page ∉ t.tablePages → page ∉ s.kmem.freelist → s'.word page = s.word page

namespace Becomes
variable {t' t'' : PageTable} {s'' : Ram} {page : PageNo}

theorem refl (h : Holds s clear t) : Becomes s clear t s t :=
  ⟨h, rfl, rfl, List.suffix_refl _, fun _ _ _ => rfl⟩

/-- A page that is in no table, and not free, is still so. -/
theorem outside (h : Becomes s clear t s' t') (other : page ∉ t.tablePages) (used : page ∉ s.kmem.freelist) :
    page ∉ t'.tablePages ∧ page ∉ s'.kmem.freelist := by
  constructor
  · intro mem
    have either := Multiset.mem_add.2 (.inr mem : page ∈ s'.kmem.pool ∨ page ∈ t'.tablePages)
    rw [h.pool] at either
    rcases Multiset.mem_add.1 either with free | mine
    · exact used (Multiset.mem_coe.1 free)
    · exact other mine
  · exact fun mem => used (h.suffix.subset mem)

theorem trans (h : Becomes s clear t s' t') (h' : Becomes s' clear t' s'' t'') : Becomes s clear t s'' t'' := by
  constructor
  · exact h'.holds
  · rw [h'.name, h.name]
  · rw [h'.pool, h.pool]
  · exact h'.suffix.trans h.suffix
  · intro page other used
    obtain ⟨other', used'⟩ := h.outside other used
    rw [h'.frame page other' used', h.frame page other used]

end Becomes

/-- **`pagewalk`** on the words does what it does on the tables. -/
theorem pagewalk_lockstep (h : Holds s clear t) (va : Nat) : Lockstep (pagewalk t.name va) s (Kernel.pagewalk t va) s.kmem
    fun l3 s' r k => s'.kmem = k ∧ Becomes s clear t s' r.2 ∧ (r.1 = false → l3 = none) ∧
      (r.1 = true → ∃ x, r.2.level3 va = some x ∧ l3 = some x.name) := by
  suffices main : Lockstep (pagewalk t.name va) s (Kernel.pagewalk t va) s.kmem fun l3 s' r k => s'.kmem = k ∧
      (s'.kmem.pool + r.2.tablePages = s.kmem.pool + t.tablePages → Becomes s clear t s' r.2 ∧ (r.1 = false → l3 = none) ∧
        (r.1 = true → ∃ x, r.2.level3 va = some x ∧ l3 = some x.name)) by
    apply (main.after (pagewalk_pool (fun _ => 0) t va s.kmem)).mono
    rintro l3 s' r k ⟨⟨rfl, walked⟩, pool⟩
    exact ⟨rfl, walked pool⟩
  have apart := h.apart
  unfold pagewalk Kernel.pagewalk
  apply round_lockstep (L := Level.second clear) h.shows apart h.low
  · intro s' words list
    apply Lockstep.pure
    refine ⟨rfl, fun pool => ⟨?_, fun _ => rfl, fun never => by cases never⟩⟩
    constructor
    · refine ⟨by rw [words]; exact h.shows, by rw [pool]; exact apart, by rw [list]; exact h.low⟩
    · rfl
    · exact pool
    · rw [list]
    · intro page _ _
      rw [words]
  intro l2 s₁ first
  obtain ⟨shown, apart₁⟩ := first.behind apart
  have low₁ : ∀ page ∈ s₁.kmem.freelist, page < 2 ^ 36 := fun page mem => h.low page (first.suffix.subset mem)
  -- the table after the first round, which is not free
  have whole : (s₁.kmem.pool + (t.put (PIDX 1 va) (some l2)).names (Table.names (Level.second clear).sub)).Nodup := by
    rw [first.pool]
    exact apart
  have taken : l2.name ∈ (t.put (PIDX 1 va) (some l2)).names (Table.names (Level.second clear).sub) :=
    Multiset.mem_of_le (Table.sub_le_names (Table.put_self t _ (some l2))) (Table.name_mem ..)
  apply round_lockstep (L := Level.third) shown apart₁ low₁
  · intro s' words list
    apply Lockstep.pure
    refine ⟨rfl, fun pool => ⟨?_, fun _ => rfl, fun never => by cases never⟩⟩
    constructor
    · refine ⟨by rw [words]; exact first.shows, by rw [pool]; exact apart, by rw [list]; exact low₁⟩
    · rfl
    · exact pool
    · rw [list]
      exact first.suffix
    · intro page other used
      rw [words]
      apply first.frame page _ used
      rintro rfl
      exact other (Table.name_mem ..)
  intro l3 s₂ second
  apply Lockstep.pure
  refine ⟨rfl, fun pool => ⟨?_, (fun never => by cases never), fun _ => ⟨l3, ?_, rfl⟩⟩⟩
  rotate_left
  · rw [PageTable.level3, Table.put_self, Option.bind_some, Table.put_self]
  have shows : (Level.first clear).shown s₂.word (t.put (PIDX 1 va) (some (l2.put (PIDX 2 va) (some l3)))) := by
    rw [← t.put_put (PIDX 1 va) (some l2)]
    refine Level.replace first.shows (Multiset.nodup_add.1 whole).2.1 (Table.put_self t _ (some l2)) rfl second.shows ?_
    intro page mem other
    apply second.frame page
    · rintro rfl
      exact other (Table.name_mem ..)
    · exact fun free => free_not_mem whole free mem
  constructor
  · refine ⟨shows, by rw [pool]; exact h.apart, ?_⟩
    exact fun page mem => low₁ page (second.suffix.subset mem)
  · rfl
  · exact pool
  · exact second.suffix.trans first.suffix
  · intro page other used
    rw [second.frame page, first.frame page _ used]
    · rintro rfl
      exact other (Table.name_mem ..)
    · rintro rfl
      rcases Multiset.mem_add.1 (first.pool ▸ Multiset.mem_add.2 (.inr taken)) with free | mine
      · exact used (Multiset.mem_coe.1 free)
      · exact other mine
    · exact fun mem => used (first.suffix.subset mem)

theorem pagewalkDeref_lockstep (h : Holds s clear t) (va : Nat) : Lockstep (pagewalkDeref t.name va) s (Kernel.pagewalkDeref t va) s.kmem
    fun l3 s' t' k => s'.kmem = k ∧ Becomes s clear t s' t' ∧ ∃ x, t'.level3 va = some x ∧ l3 = x.name := by
  unfold pagewalkDeref Kernel.pagewalkDeref
  apply (pagewalk_lockstep h va).bind
  rintro l3 s' ⟨found, t'⟩ k ⟨rfl, becomes, lost, leads⟩
  cases found with
  | false =>
    rw [lost rfl]
    exact Lockstep.throw _
  | true =>
    obtain ⟨x, level3, rfl⟩ := leads rfl
    exact Lockstep.pure ⟨rfl, becomes, x, level3, rfl⟩

end Walk

section Entries
variable {s : Ram} {clear : Clear} {t : PageTable} {va : Nat} {l3 : Level3} {y : Option Pte}

/-- The third-level table of an entry. -/
theorem Holds.level3 (h : Holds s clear t) (there : t.level3 va = some l3) : Shows s.word (· = 0#64) pteWord Fits l3 := by
  obtain ⟨l2, first, second⟩ := Option.bind_eq_some_iff.1 there
  have one := h.shows (PIDX 1 va)
  rw [first] at one
  have two := one.2.2 (PIDX 2 va)
  rw [second] at two
  exact two.2.2

/-- The word of an entry. -/
theorem Holds.pte (h : Holds s clear t) (there : t.level3 va = some l3) : s.word l3.name (PIDX 3 va) = (t.pte va).elim 0#64 pteWord := by
  have here := h.level3 there (PIDX 3 va)
  rw [PageTable.pte_level3, there, Option.bind_some]
  cases entry : l3.entry (PIDX 3 va) with
  | none =>
    rw [entry] at here
    exact here
  | some pte =>
    rw [entry] at here
    exact here.1

theorem Holds.fits (h : Holds s clear t) {pte : Pte} (there : t.pte va = some pte) : Fits pte := by
  rw [PageTable.pte_level3] at there
  obtain ⟨l3, third, entry⟩ := Option.bind_eq_some_iff.1 there
  have here := h.level3 third (PIDX 3 va)
  rw [entry] at here
  exact here.2

/-- The tables of an entry that can be reached. -/
theorem PageTable.missing_of_level3 (there : t.level3 va = some l3) : t.missing va = 0 := by
  obtain ⟨l2, first, second⟩ := Option.bind_eq_some_iff.1 there
  unfold PageTable.missing
  simp [first, second]

theorem PageTable.level3_mem (there : t.level3 va = some l3) : l3.name ∈ t.tablePages := by
  obtain ⟨l2, first, second⟩ := Option.bind_eq_some_iff.1 there
  have mem : l3.name ∈ l2.names (Table.names fun _ => 0) := Multiset.mem_of_le (Table.sub_le_names second) (Table.name_mem ..)
  exact Multiset.mem_of_le (Table.sub_le_names first) mem

/-- A walk where the tables are there changes nothing. -/
theorem Holds.walks (h : Holds s clear t) (there : t.level3 va = some l3) : pagewalkDeref t.name va s = .ok (l3.name, s) := by
  obtain ⟨l2, first, second⟩ := Option.bind_eq_some_iff.1 there
  have one := h.shows (PIDX 1 va)
  rw [first] at one
  have two := one.2.2 (PIDX 2 va)
  rw [second] at two
  have walk : pagewalk t.name va s = .ok (some l3.name, s) := by
    unfold pagewalk walkLevels
    rw [bind_runs (get_runs s), one.1, isTable_tableEntry, if_pos rfl, pageOf_tableEntry one.2.1]
    unfold walkLevels
    rw [bind_runs (get_runs s), two.1, isTable_tableEntry, if_pos rfl, pageOf_tableEntry two.2.1]
    rfl
  unfold pagewalkDeref
  rw [bind_runs walk]
  rfl

/-- `*pte = w`, where the walk has come to. -/
theorem Holds.set (h : Holds s clear t) (there : t.level3 va = some l3) (fits : ∀ pte ∈ y, Fits pte) :
    Becomes s clear t (s.set l3.name (PIDX 3 va) (y.elim 0#64 pteWord)) (t.setPte va y) := by
  have pages : (t.setPte va y).tablePages = t.tablePages := PageTable.tablePages_setPte (PageTable.missing_of_level3 there)
  obtain ⟨l2, first, second⟩ := Option.bind_eq_some_iff.1 there
  have nodup := (Multiset.nodup_add.1 h.apart).2.1
  have one := h.shows (PIDX 1 va)
  rw [first] at one
  have new : Level.third.shown (s.set l3.name (PIDX 3 va) (y.elim 0#64 pteWord)).word (l3.put (PIDX 3 va) y) := by
    refine Shows.put (h.level3 there) (Ram.set_self ..) ?_ fun _ _ _ _ fits => fits
    cases y with
    | none => exact rfl
    | some pte => exact ⟨rfl, fits pte rfl⟩
  have others : ∀ page, page ≠ l3.name → (s.set l3.name (PIDX 3 va) (y.elim 0#64 pteWord)).word page = s.word page :=
    fun page ne => Ram.set_ne _ _ _ ne
  have mem2 : l3.name ∈ l2.names (Level.second clear).sub :=
    Multiset.mem_of_le (Table.sub_le_names second) (Table.name_mem ..)
  have mem1 : l3.name ∈ t.tablePages := Multiset.mem_of_le (Table.sub_le_names first) mem2
  have shows : (Level.first clear).shown (s.set l3.name (PIDX 3 va) (y.elim 0#64 pteWord)).word (t.setPte va y) := by
    rw [PageTable.setPte, first, Option.map_some, second, Option.map_some]
    refine Level.replace h.shows nodup first rfl ?_ ?_
    · refine Level.replace one.2.2 (Multiset.nodup_of_le (Table.sub_le_names first) nodup) second rfl new ?_
      intro page _ other
      apply others
      rintro rfl
      exact other (Table.name_mem ..)
    · intro page _ other
      apply others
      rintro rfl
      exact other mem2
  constructor
  · refine ⟨shows, ?_, h.low⟩
    rw [pages]
    exact h.apart
  · rfl
  · rw [pages]
    rfl
  · exact List.suffix_refl _
  · intro page other _
    apply others
    rintro rfl
    exact other mem1

/-- The loop of `pagemap`. -/
theorem mapPages_lockstep {attr : BitVec 64} (bits : PTE_PA attr = 0#64) (left : Nat) : ∀ {s : Ram} {t : PageTable} (va pa : Nat),
    Holds s clear t → Lockstep (mapPages attr left t.name va pa) s (Kernel.mapPages attr left t va pa) s.kmem fun _ s' t' k =>
      s'.kmem = k ∧ Becomes s clear t s' t' := by
  induction left with
  | zero => exact fun _ _ h => Lockstep.pure ⟨rfl, Becomes.refl h⟩
  | succ left ih =>
    intro s t va pa h
    unfold mapPages Kernel.mapPages
    apply (pagewalkDeref_lockstep h va).bind
    rintro _ s₁ t₁ _ ⟨rfl, walked, l3, there, rfl⟩
    apply Lockstep.machine (get_runs s₁)
    rw [walked.holds.pte there]
    cases entry : t₁.pte va with
    | some pte =>
      rw [Option.elim_some, if_pos (pteWord_af pte), if_pos Option.isSome_some]
      exact Lockstep.throw _
    | none =>
      have clear : ¬ 0#64 &&& PTE_AF ≠ 0#64 := by decide
      have free : ¬ (none : Option Pte).isSome = true := by decide
      rw [Option.elim_none, if_neg clear, if_neg free]
      apply Lockstep.machine (setEntry_runs ..)
      have word : leafEntry pa attr = pteWord { page := pa / PAGESIZE % 2 ^ 36, attr } := (leafEntry_page pa attr).symm
      have fits : Fits { page := pa / PAGESIZE % 2 ^ 36, attr } := ⟨Nat.mod_lt _ (by decide), bits⟩
      have put := walked.holds.set there (y := some { page := pa / PAGESIZE % 2 ^ 36, attr }) fun pte mem => by
        cases mem
        exact fits
      rw [word, ← walked.name]
      apply (ih _ _ put.holds).mono
      rintro _ s₂ t₂ k ⟨rfl, later⟩
      exact ⟨rfl, (walked.trans put).trans later⟩

/-- **`pagemap`** on the words. -/
theorem pagemap_lockstep {attr : BitVec 64} (bits : PTE_PA attr = 0#64) (h : Holds s clear t) (va pa size : Nat) :
    Lockstep (pagemap t.name va pa size attr) s (Kernel.pagemap t va pa size attr) s.kmem fun _ s' t' k =>
      s'.kmem = k ∧ Becomes s clear t s' t' := by
  unfold pagemap Kernel.pagemap
  split
  · exact Lockstep.throw _
  · exact mapPages_lockstep bits _ va pa h

/-- **The hardware** finds what the entry of an address says. -/
theorem Holds.translate (h : Holds s Clear.user t) (va : Nat) :
    s.word.translate t.name va = (t.pte va).map fun pte => (pte.page * PAGESIZE + va % PAGESIZE, PTE_AF ||| pte.attr ||| PTE_V) := by
  unfold Memory.translate
  dsimp only
  have one := h.shows (PIDX 1 va)
  cases first : t.entry (PIDX 1 va) with
  | none =>
    rw [first] at one
    rw [show s.word t.name (PIDX 1 va) = 0#64 from one, if_neg (by decide), PageTable.pte, first]
    rfl
  | some l2 =>
  rw [first] at one
  obtain ⟨word, small, shown⟩ := one
  rw [word, isTable_tableEntry, if_pos rfl, pageOf_tableEntry small]
  have two := shown (PIDX 2 va)
  cases second : l2.entry (PIDX 2 va) with
  | none =>
    rw [second] at two
    rw [show s.word l2.name (PIDX 2 va) = 0#64 from two, if_neg (by decide), PageTable.pte, first, Option.bind_some, second]
    rfl
  | some l3 =>
  rw [second] at two
  obtain ⟨word, small, -⟩ := two
  have there : t.level3 va = some l3 := by
    rw [PageTable.level3, first, Option.bind_some, second]
  rw [word, isTable_tableEntry, if_pos rfl, pageOf_tableEntry small, h.pte there]
  cases entry : t.pte va with
  | none =>
    rw [Option.elim_none, if_neg (by decide)]
    rfl
  | some pte =>
    have fits := h.fits entry
    have page : (PTE_PA (pteWord pte)).toNat = pte.page * PAGESIZE := by
      rw [PTE_PA_toNat, ← pageOf_eq, fits.pageOf]
    have bits : pteWord pte &&& ~~~0xfffffffff000#64 = PTE_AF ||| pte.attr ||| PTE_V := leafEntry_attr fits.attr
    rw [Option.elim_some, if_pos ⟨leafEntry_v .., pteWord_af pte⟩, page, bits]
    rfl

end Entries

end Aarch64Os.Kernel.Words
