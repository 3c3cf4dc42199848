import Aarch64Os.Kernel.Mm.Teardown

/-!
# What a page table translates (`kernel/mm.c`)

A user table is built from an empty root by walks, `pagemap` and `pageunmap`, while the rest of the
kernel takes pages, writes to its own and frees them. However it has been built, its tables are a tree
that shares no page, so `pagemap` changes the translation of the addresses it is given, and of no other.
-/

namespace Aarch64Os.Kernel
set_option autoImplicit false
open Base

section Pages
variable {t : PageTable} {attr : BitVec 64}

/-- What the loop of `pagemap` has done when it returns. -/
theorem mapPages_after (attr : BitVec 64) (left : Nat) : ∀ {t : PageTable} {a b : Nat} {s : Kallocator}, a + left ≤ 2 ^ 27 →
    b + left ≤ 2 ^ 36 → After (mapPages attr left t (a * PAGESIZE) (b * PAGESIZE)) s fun t' _ =>
      (∀ n, a ≤ n → n < a + left → t.pte (n * PAGESIZE) = none) ∧
      ∀ n < 2 ^ 27, t'.pte (n * PAGESIZE) = if a ≤ n ∧ n < a + left then some { page := b + (n - a), attr } else t.pte (n * PAGESIZE) := by
  induction left with
  | zero =>
    intro t a b s low low'
    apply After.pure
    refine ⟨fun n ge lt => absurd lt (by omega), ?_⟩
    intro n lt
    rw [if_neg (by omega)]
  | succ left ih =>
    intro t a b s low low'
    unfold mapPages
    refine (pagewalkDeref_ends t (a * PAGESIZE) s).1.bind ?_
    intro t₁ u walked
    rw [walked.pte]
    split
    · exact After.throw _
    · rename_i clear
      rw [Option.not_isSome_iff_eq_none] at clear
      rw [next_page (by omega), next_page (by omega), Nat.mul_div_cancel _ (by decide), Nat.mod_eq_of_lt (by omega)]
      have others : ∀ n < 2 ^ 27, n ≠ a → (t₁.setPte (a * PAGESIZE) (some { page := b, attr })).pte (n * PAGESIZE) = t.pte (n * PAGESIZE) := by
        intro n lt ne
        rw [PageTable.pte_setPte_ne, walked.pte]
        rw [Nat.mul_div_cancel _ (by decide), Nat.mul_div_cancel _ (by decide), Nat.mod_eq_of_lt lt, Nat.mod_eq_of_lt (by omega)]
        exact ne
      refine (ih (a := a + 1) (b := b + 1) (by omega) (by omega)).mono ?_
      rintro t' _ ⟨free, ptes⟩
      constructor
      · intro n ge lt
        rcases eq_or_ne n a with rfl | ne
        · exact clear
        · rw [← others n (by omega) ne]
          exact free n (by omega) (by omega)
      · intro n lt
        rw [ptes n lt]
        rcases eq_or_ne n a with rfl | ne
        · rw [if_neg (by omega), if_pos (by omega), PageTable.pte_setPte walked.ready rfl, Nat.sub_self, Nat.add_zero]
        · rw [others n lt ne]
          have same : (a + 1 ≤ n ∧ n < a + 1 + left) ↔ (a ≤ n ∧ n < a + (left + 1)) := by omega
          simp only [same]
          split
          · rw [show b + 1 + (n - (a + 1)) = b + (n - a) by omega]
          · rfl

/-- `pagemap` of one page. -/
theorem pagemap_page_after (t : PageTable) {n : Nat} {page : PageNo} (low : n < 2 ^ 27) (small : page < 2 ^ 36) (attr : BitVec 64)
    (s : Kallocator) : After (pagemap t (n * PAGESIZE) (page * PAGESIZE) PAGESIZE attr) s fun t' _ => t.pte (n * PAGESIZE) = none ∧
      ∀ m < 2 ^ 27, t'.pte (m * PAGESIZE) = if m = n then some { page, attr } else t.pte (m * PAGESIZE) := by
  unfold pagemap
  rw [if_neg (by simp), Nat.div_self (by decide)]
  have low' : page + 1 ≤ 2 ^ 36 := small
  refine (mapPages_after attr 1 (by omega) low').mono ?_
  rintro t' u ⟨clear, ptes⟩
  refine ⟨clear n le_rfl (by omega), ?_⟩
  intro m lt
  rw [ptes m lt]
  rcases eq_or_ne m n with rfl | ne
  · rw [if_pos (by omega), if_pos rfl, Nat.sub_self, Nat.add_zero]
  · rw [if_neg (by omega), if_neg ne]

/-- It fails where a page is mapped already, or where `kalloc` has no page for a table. -/
theorem mapPages_fails (attr : BitVec 64) (left : Nat) : ∀ {t : PageTable} {a pa : Nat} {s : Kallocator} {e : Fault}, s.held = false →
    a + left ≤ 2 ^ 27 → mapPages attr left t (a * PAGESIZE) pa s = .error e →
      e = .panic "this entry has been used" ∧ (∃ n, a ≤ n ∧ n < a + left ∧ (t.pte (n * PAGESIZE)).isSome) ∨
      e = .undefined ∧ s.free < 2 * left := by
  induction left with
  | zero =>
    intro t a pa s e free low fails
    cases fails
  | succ left ih =>
    intro t a pa s e free low fails
    have two : t.missing (a * PAGESIZE) ≤ 2 := by
      unfold PageTable.missing
      split
      · exact Nat.le_refl 2
      · split <;> decide
    unfold mapPages at fails
    rcases fail_bind.1 fails with fails | ⟨t₁, u, run, fails⟩
    · obtain ⟨rfl, few⟩ := pagewalkDeref_fails free fails
      exact .inr ⟨rfl, by omega⟩
    · have walked := (pagewalkDeref_ends t (a * PAGESIZE) s).1 _ _ run
      have lock := pagewalkDeref_lock t (a * PAGESIZE) free _ _ run
      have used := walked.used rfl
      rw [walked.pte] at fails
      split at fails
      · rename_i used
        cases fails
        exact .inl ⟨rfl, a, le_rfl, by omega, used⟩
      · rename_i clear
        rw [next_page (by omega)] at fails
        rcases ih lock (by omega) fails with ⟨rfl, n, ge, lt, there⟩ | ⟨rfl, few⟩
        · refine .inl ⟨rfl, n, by omega, by omega, ?_⟩
          rwa [PageTable.pte_setPte_ne, walked.pte] at there
          rw [Nat.mul_div_cancel _ (by decide), Nat.mul_div_cancel _ (by decide), Nat.mod_eq_of_lt (by omega), Nat.mod_eq_of_lt (by omega)]
          omega
        · exact .inr ⟨rfl, by omega⟩

end Pages

namespace Words

/-- The pages that a table translates `count` pages from page `a` on to. -/
def Memory.frames (word : Memory) (root : PageNo) (a count : Nat) : List PageNo :=
  (List.range' a count).filterMap fun n => (word.translate root (n * PAGESIZE)).map fun r => r.1 / PAGESIZE

/-- A user table with root `root`, in a memory where the pages `taken` are in use for something else. All
calls of `kalloc` have returned a page. -/
inductive Built (root : PageNo) : Ram → Multiset PageNo → Prop
  /-- The page of the root has just been taken. -/
  | empty {s s' : Ram} {taken : Multiset PageNo} (apart : (s.kmem.pool + taken).Nodup) (ram : ∀ page ∈ s.kmem.pool + taken, InRam page)
      (free : s.kmem.held = false) (run : kalloc s = .ok (some root, s')) : Built root s' taken
  /-- An address is looked up. -/
  | lookup {s s' : Ram} {taken : Multiset PageNo} {l3 : PageNo} (h : Built root s taken) (va : Nat)
      (run : pagewalk root va s = .ok (some l3, s')) : Built root s' taken
  /-- Pages are mapped, -/
  | map {s s' : Ram} {taken : Multiset PageNo} {attr : BitVec 64} (h : Built root s taken) (va pa size : Nat) (bits : PTE_PA attr = 0#64)
      (run : pagemap root va pa size attr s = .ok ((), s')) : Built root s' taken
  /-- and unmapped, where they are in use for this. -/
  | unmap {s s' : Ram} {taken taken' : Multiset PageNo} {a count : Nat} (h : Built root s taken) (low : a + count ≤ 2 ^ 27)
      (used : ↑(s.word.frames root a count) + taken' = taken)
      (run : pageunmap root (a * PAGESIZE) (count * PAGESIZE) s = .ok ((), s')) : Built root s' taken'
  /-- The rest of the kernel takes a page, -/
  | take {s s' : Ram} {taken : Multiset PageNo} {page : PageNo} (h : Built root s taken) (run : kalloc s = .ok (some page, s')) :
      Built root s' (page ::ₘ taken)
  /-- writes to one, -/
  | write {s : Ram} {taken : Multiset PageNo} {page : PageNo} (h : Built root s taken) (mine : page ∈ taken) (words : Fin 512 → BitVec 64) :
      Built root (s.fill page words) taken
  /-- and frees one. -/
  | give {s s' : Ram} {taken : Multiset PageNo} {page : PageNo} (h : Built root s (page ::ₘ taken)) (run : kfree page s = .ok ((), s')) :
      Built root s' taken

section Built
variable {root : PageNo} {s s' : Ram} {taken : Multiset PageNo} {t t' : PageTable}

/-- Memory holds the table, apart from what is in use for something else. -/
structure Sound (root : PageNo) (s : Ram) (taken : Multiset PageNo) (t : PageTable) : Prop where
  name : t.name = root
  holds : Holds s Clear.user t
  apart : (s.kmem.pool + (t.tablePages + taken)).Nodup
  small : ∀ page ∈ taken, page < 2 ^ 36
  free : s.kmem.held = false

theorem Holds.frames (h : Holds s Clear.user t) (a count : Nat) : s.word.frames t.name a count = t.frames a count := by
  unfold Memory.frames PageTable.frames
  apply List.filterMap_congr
  intro n _
  rw [h.translate, Option.map_map]
  congr 1
  funext pte
  rw [Function.comp_apply, Nat.mul_mod_left, Nat.add_zero, Nat.mul_div_cancel _ (by decide)]

/-- A table that becomes another one keeps apart from the rest. -/
theorem Sound.becomes (h : Sound root s taken t) (becomes : Becomes s Clear.user t s' t') (free : s'.kmem.held = false) :
    Sound root s' taken t' := by
  refine ⟨becomes.name.trans h.name, becomes.holds, ?_, h.small, free⟩
  rw [← add_assoc, becomes.pool, add_assoc]
  exact h.apart

theorem Sound.other {page : PageNo} (h : Sound root s taken t) (mine : page ∈ taken) : page ∉ t.tablePages :=
  fun mem => Multiset.disjoint_left.1 (Multiset.nodup_add.1 (Multiset.nodup_add.1 h.apart).2.1).2.2 mem mine

theorem Sound.used {page : PageNo} (h : Sound root s taken t) (mine : page ∈ taken) : page ∉ s.kmem.freelist := by
  intro mem
  exact Multiset.disjoint_left.1 (Multiset.nodup_add.1 h.apart).2.2 (Multiset.mem_coe.2 mem) (Multiset.mem_add.2 (.inr mine))

/-- **However the table has been built.** -/
theorem Built.sound (built : Built root s taken) : ∃ t, Sound root s taken t := by
  induction built with
  | @empty s s' taken apart ram free run =>
    rcases kalloc_words s _ _ run with ⟨never, -⟩ | ⟨new, same, pool, list, held, words⟩
    · cases never
    cases same
    rw [pool] at apart ram
    have nodup : (s'.kmem.pool + ({root} + taken)).Nodup := by
      rwa [← add_assoc, add_comm s'.kmem.pool, Multiset.singleton_add]
    refine ⟨Table.empty root, rfl, ⟨(Level.first Clear.user).fresh ?_, ?_, ?_⟩, ?_, ?_, held.trans free⟩
    · rw [words, Function.update_self]
    · rw [PageTable.tablePages, PageTable.pageNames, Table.names_empty]
      exact Multiset.nodup_of_le (add_le_add_right (Multiset.le_add_right ..) _) nodup
    · intro page mem
      exact (ram page (Multiset.mem_add.2 (.inl (Multiset.mem_cons_of_mem mem)))).small
    · rw [PageTable.tablePages, PageTable.pageNames, Table.names_empty]
      exact nodup
    · exact fun page mem => (ram page (Multiset.mem_add.2 (.inr mem))).small
  | lookup h va run ih =>
    obtain ⟨t, sound⟩ := ih
    rw [← sound.name] at run
    obtain ⟨⟨found, t'⟩, k, run', rfl, becomes, lost, -⟩ := (pagewalk_lockstep sound.holds va).returned run
    have lock := pagewalk_lock t va sound.free _ _ run'
    cases found with
    | false => cases lost rfl
    | true => exact ⟨t', sound.becomes becomes lock⟩
  | map h va pa size bits run ih =>
    obtain ⟨t, sound⟩ := ih
    rw [← sound.name] at run
    obtain ⟨t', k, run', rfl, becomes⟩ := (pagemap_lockstep bits sound.holds va pa size).returned run
    exact ⟨t', sound.becomes becomes (pagemap_lock t va pa _ sound.free _ _ run')⟩
  | @unmap s s' taken taken' a count h low used run ih =>
    obtain ⟨t, sound⟩ := ih
    rw [← sound.name, sound.holds.frames] at used
    rw [← sound.name] at run
    have apart := sound.apart
    rw [← used, ← add_assoc t.tablePages, ← add_assoc] at apart
    have part := Multiset.nodup_of_le (Multiset.le_add_right ..) apart
    obtain ⟨t', k, run', rfl, unmapped⟩ := (pageunmap_lockstep low sound.holds part).returned run
    refine ⟨t', unmapped.name.trans sound.name, unmapped.holds, ?_, ?_, pageunmap_lock t _ _ sound.free _ _ run'⟩
    · rw [← add_assoc, unmapped.pool]
      exact apart
    · intro page mem
      apply sound.small
      rw [← used]
      exact Multiset.mem_add.2 (.inr mem)
  | @take s s' taken page h run ih =>
    obtain ⟨t, sound⟩ := ih
    rcases kalloc_words s _ _ run with ⟨never, -⟩ | ⟨new, same, pool, list, held, words⟩
    · cases never
    cases same
    have mem : page ∈ s.kmem.freelist := by
      rw [list]
      exact List.mem_cons_self
    have apart : (s'.kmem.pool + (t.tablePages + page ::ₘ taken)).Nodup := by
      have apart := sound.apart
      rwa [pool, Multiset.cons_add, ← Multiset.add_cons, ← Multiset.add_cons] at apart
    refine ⟨t, sound.name, ⟨?_, ?_, ?_⟩, apart, ?_, held.trans sound.free⟩
    · apply (Level.first Clear.user).frame sound.holds.shows
      intro page' mem'
      rw [words, Function.update_of_ne]
      rintro rfl
      exact free_not_mem sound.holds.apart mem mem'
    · exact Multiset.nodup_of_le (add_le_add_right (Multiset.le_add_right ..) _) apart
    · intro page' mem'
      apply sound.holds.low
      rw [list]
      exact List.mem_cons_of_mem page mem'
    · intro page' mem'
      rcases Multiset.mem_cons.1 mem' with rfl | mem'
      · exact sound.holds.low page' mem
      · exact sound.small page' mem'
  | @write s taken page h mine words ih =>
    obtain ⟨t, sound⟩ := ih
    refine ⟨t, sound.name, ⟨?_, sound.holds.apart, sound.holds.low⟩, sound.apart, sound.small, sound.free⟩
    apply (Level.first Clear.user).frame sound.holds.shows
    intro page' mem
    apply Ram.fill_ne
    rintro rfl
    exact sound.other mine mem
  | @give s s' taken page h run ih =>
    obtain ⟨t, sound⟩ := ih
    obtain ⟨_, k, run', rfl, same⟩ := (kfree_lockstep page s).returned run
    have list := kfree_pushes s.kmem page _ _ run'
    have mine := Multiset.mem_cons_self page taken
    have apart : (s'.kmem.pool + (t.tablePages + taken)).Nodup := by
      have apart := sound.apart
      rw [Multiset.add_cons, Multiset.add_cons, ← Multiset.cons_add] at apart
      rw [Kallocator.pool, list]
      exact apart
    refine ⟨t, sound.name, ?_, apart, ?_, (kfree_after s.kmem page _ _ run').2⟩
    · exact sound.holds.freed (sound.other mine) (sound.used mine) (sound.small page mine) list same
    · exact fun page' mem => sound.small page' (Multiset.mem_cons_of_mem mem)

/-- The entry that translates an address. -/
theorem Sound.translate (h : Sound root s taken t) (x : Nat) : s.word.translate root x =
    (t.pte (x / PAGESIZE * PAGESIZE)).map fun pte => (pte.page * PAGESIZE + x % PAGESIZE, PTE_AF ||| pte.attr ||| PTE_V) := by
  rw [← h.name, h.holds.translate, t.pte_page]
  rw [Nat.mul_div_cancel _ (by decide)]

/-- A page that is in use for nothing else has been mapped in the table `t`. -/
structure MappedPage (s : Ram) (t : PageTable) (n : Nat) (page : PageNo) (attr : BitVec 64) (s' : Ram) (t' : PageTable) : Prop where
  becomes : Becomes s Clear.user t s' t'
  new : t.pte (n * PAGESIZE) = none
  maps : ∀ m < 2 ^ 27, t'.pte (m * PAGESIZE) = if m = n then some { page, attr } else t.pte (m * PAGESIZE)
  pool : s'.kmem.pool + t'.owned = s.kmem.pool + t.owned + {page}

/-- `pagemap` of one page. -/
theorem pagemap_new {n : Nat} {page : PageNo} {attr : BitVec 64} (h : Holds s Clear.user t) (bits : PTE_PA attr = 0#64) (lt : n < 2 ^ 27)
    (small : page < 2 ^ 36) : After (pagemap t.name (n * PAGESIZE) (page * PAGESIZE) PAGESIZE attr) s fun _ s' =>
      ∃ t', MappedPage s t n page attr s' t' := by
  intro _ s' run
  obtain ⟨t', k, run', rfl, becomes⟩ := (pagemap_lockstep bits h _ _ _).returned run
  have total := pagemap_pool t (n * PAGESIZE) page attr s.kmem _ _ run'
  rw [Nat.mod_eq_of_lt small] at total
  obtain ⟨new, maps⟩ := pagemap_page_after t lt small attr s.kmem _ _ run'
  exact ⟨t', becomes, new, maps, total⟩

section Map
variable {a b count : Nat} {attr : BitVec 64}

/-- What `pagemap` does to the entries when it returns. -/
theorem Sound.pagemap_runs (h : Sound root s taken t) (bits : PTE_PA attr = 0#64) (low : a + count ≤ 2 ^ 27) (low' : b + count ≤ 2 ^ 36)
    (run : pagemap root (a * PAGESIZE) (b * PAGESIZE) (count * PAGESIZE) attr s = .ok ((), s')) :
    ∃ t', Sound root s' taken t' ∧ (∀ n, a ≤ n → n < a + count → t.pte (n * PAGESIZE) = none) ∧
      ∀ n < 2 ^ 27, t'.pte (n * PAGESIZE) = if a ≤ n ∧ n < a + count then some { page := b + (n - a), attr } else t.pte (n * PAGESIZE) := by
  rw [← h.name] at run
  obtain ⟨t', k, run', rfl, becomes⟩ := (pagemap_lockstep bits h.holds _ _ _).returned run
  have lock := pagemap_lock t _ _ attr h.free _ _ run'
  rw [Kernel.pagemap, if_neg (by simp), Nat.mul_div_cancel _ (by decide)] at run'
  exact ⟨t', h.becomes becomes lock, mapPages_after attr count low low' _ _ run'⟩

/-- What it fails for. -/
theorem Sound.pagemap_fails (h : Sound root s taken t) (bits : PTE_PA attr = 0#64) (low : a + count ≤ 2 ^ 27) {e : Fault}
    (fails : pagemap root (a * PAGESIZE) (b * PAGESIZE) (count * PAGESIZE) attr s = .error e) :
    e = .panic "this entry has been used" ∧ (∃ n, a ≤ n ∧ n < a + count ∧ (t.pte (n * PAGESIZE)).isSome) ∨
      e = .undefined ∧ s.kmem.free < 2 * count := by
  rw [← h.name] at fails
  have fails' := ((pagemap_lockstep bits h.holds _ _ _).1 e).1 fails
  rw [Kernel.pagemap, if_neg (by simp), Nat.mul_div_cancel _ (by decide)] at fails'
  exact mapPages_fails attr count h.free low fails'

end Map

/-- The page of an address in a range. -/
theorem page_add (a k : Nat) : (a * PAGESIZE + k) / PAGESIZE = a + k / PAGESIZE := by
  rw [Nat.add_comm, Nat.add_mul_div_right _ _ (by decide), Nat.add_comm]

/-- Some address of a range is translated. -/
def Mapped (word : Memory) (root : PageNo) (va size : Nat) : Prop := ∃ k < size, (word.translate root (va + k)).isSome

theorem Sound.mapped_iff (h : Sound root s taken t) (a count : Nat) : Mapped s.word root (a * PAGESIZE) (count * PAGESIZE) ↔
    ∃ n, a ≤ n ∧ n < a + count ∧ (t.pte (n * PAGESIZE)).isSome := by
  constructor
  · rintro ⟨k, lt, there⟩
    rw [h.translate, Option.isSome_map] at there
    have below : k / PAGESIZE < count := Nat.div_lt_of_lt_mul (by rwa [Nat.mul_comm])
    rw [page_add] at there
    exact ⟨a + k / PAGESIZE, Nat.le_add_right .., Nat.add_lt_add_left below a, there⟩
  · rintro ⟨n, ge, lt, there⟩
    refine ⟨(n - a) * PAGESIZE, Nat.mul_lt_mul_of_pos_right (by omega) (by decide), ?_⟩
    rw [h.translate, Option.isSome_map, ← Nat.add_mul, Nat.mul_div_cancel _ (by decide), Nat.add_sub_cancel' ge]
    exact there

/-- What `pagemap` does to the translation: it stops where some page is mapped already. Otherwise it
returns, and the range is translated as it says, and nothing else is translated in another way. -/
structure MapsRange (root : PageNo) (s : Ram) (va pa size : Nat) (attr : BitVec 64) : Prop where
  used : (∃ msg, pagemap root va pa size attr s = .error (.panic msg)) ↔ Mapped s.word root va size
  returns : ¬ Mapped s.word root va size → ∃ s', pagemap root va pa size attr s = .ok ((), s')
  maps : ∀ s', pagemap root va pa size attr s = .ok ((), s') → ∀ k < size,
    s'.word.translate root (va + k) = some (pa + k, PTE_AF ||| attr ||| PTE_V)
  others : ∀ s', pagemap root va pa size attr s = .ok ((), s') → ∀ x < 2 ^ 39, x < va ∨ va + size ≤ x →
    s'.word.translate root x = s.word.translate root x

theorem Sound.maps_range (h : Sound root s taken t) {a b count : Nat} {attr : BitVec 64} (bits : PTE_PA attr = 0#64) (low : a + count ≤ 2 ^ 27)
    (low' : b + count ≤ 2 ^ 36) (pages : pagemap root (a * PAGESIZE) (b * PAGESIZE) (count * PAGESIZE) attr s ≠ .error .undefined) :
    MapsRange root s (a * PAGESIZE) (b * PAGESIZE) (count * PAGESIZE) attr := by
  have free : ∀ s', pagemap root (a * PAGESIZE) (b * PAGESIZE) (count * PAGESIZE) attr s = .ok ((), s') →
      ¬ Mapped s.word root (a * PAGESIZE) (count * PAGESIZE) := by
    intro s' run mapped
    obtain ⟨t', -, clear, -⟩ := h.pagemap_runs bits low low' run
    obtain ⟨n, ge, lt, there⟩ := (h.mapped_iff a count).1 mapped
    rw [clear n ge lt] at there
    cases there
  have stops : ∀ e, pagemap root (a * PAGESIZE) (b * PAGESIZE) (count * PAGESIZE) attr s = .error e →
      Mapped s.word root (a * PAGESIZE) (count * PAGESIZE) ∧ e = .panic "this entry has been used" := by
    intro e fails
    rcases h.pagemap_fails bits low fails with ⟨rfl, there⟩ | ⟨rfl, -⟩
    · exact ⟨(h.mapped_iff a count).2 there, rfl⟩
    · exact absurd fails pages
  constructor
  · constructor
    · rintro ⟨msg, fails⟩
      exact (stops _ fails).1
    · intro mapped
      cases run : pagemap root (a * PAGESIZE) (b * PAGESIZE) (count * PAGESIZE) attr s with
      | ok r => exact absurd mapped (free r.2 run)
      | error e =>
        obtain ⟨-, rfl⟩ := stops e run
        exact ⟨_, rfl⟩
  · intro clear
    cases run : pagemap root (a * PAGESIZE) (b * PAGESIZE) (count * PAGESIZE) attr s with
    | ok r => exact ⟨r.2, rfl⟩
    | error e => exact absurd (stops e run).1 clear
  · intro s' run k lt
    obtain ⟨t', sound, -, ptes⟩ := h.pagemap_runs bits low low' run
    have below : k / PAGESIZE < count := Nat.div_lt_of_lt_mul (by rwa [Nat.mul_comm])
    have inside := Nat.add_lt_add_left below a
    rw [sound.translate, page_add, ptes _ (inside.trans_le low), if_pos ⟨Nat.le_add_right .., inside⟩, Option.map_some,
      Nat.add_sub_cancel_left, Nat.add_mul, Nat.add_assoc, Nat.add_comm (a * PAGESIZE), Nat.add_mul_mod_self_right, Nat.div_add_mod']
  · intro s' run x lt outside
    obtain ⟨t', sound, -, ptes⟩ := h.pagemap_runs bits low low' run
    have below : x / PAGESIZE < 2 ^ 27 := Nat.div_lt_of_lt_mul lt
    have other : ¬ (a ≤ x / PAGESIZE ∧ x / PAGESIZE < a + count) := by
      rintro ⟨ge, lt'⟩
      have ge' := (Nat.le_div_iff_mul_le (by decide)).1 ge
      have lt'' := (Nat.div_lt_iff_lt_mul (by decide)).1 lt'
      rw [Nat.add_mul] at lt''
      omega
    rw [sound.translate, h.translate, ptes _ below, if_neg other]

/-- **Mapping pages.** -/
theorem pagemap_translates (built : Built root s taken) {va pa size : Nat} {attr : BitVec 64} (bits : PTE_PA attr = 0#64)
    (va_page : va % PAGESIZE = 0) (pa_page : pa % PAGESIZE = 0) (size_page : size % PAGESIZE = 0) (low : va + size ≤ 2 ^ 39)
    (low' : pa + size ≤ 2 ^ 48) (pages : pagemap root va pa size attr s ≠ .error .undefined) :
    MapsRange root s va pa size attr ∧
      ∀ x l3 s', pagewalk root x s = .ok (l3, s') → ∀ y, s'.word.translate root y = s.word.translate root y := by
  obtain ⟨t, sound⟩ := built.sound
  constructor
  · obtain ⟨a, rfl⟩ := Nat.dvd_of_mod_eq_zero va_page
    obtain ⟨b, rfl⟩ := Nat.dvd_of_mod_eq_zero pa_page
    obtain ⟨count, rfl⟩ := Nat.dvd_of_mod_eq_zero size_page
    rw [Nat.mul_comm PAGESIZE a, Nat.mul_comm PAGESIZE b, Nat.mul_comm PAGESIZE count] at *
    exact sound.maps_range bits (by simp only [PAGESIZE] at low; omega) (by simp only [PAGESIZE] at low'; omega) pages
  · intro x l3 s' run y
    rw [← sound.name] at run
    obtain ⟨⟨found, t'⟩, k, run', rfl, becomes, -⟩ := (pagewalk_lockstep sound.holds x).returned run
    have walked := (pagewalk_ends t x s.kmem).1 _ _ run'
    rw [← sound.name, ← becomes.name, becomes.holds.translate, becomes.name, sound.holds.translate, walked.pte]

/-- `kalloc` has a page for every table, where two are free for every page that is mapped. -/
theorem pagemap_supplied (built : Built root s taken) {a count pa : Nat} {attr : BitVec 64} (bits : PTE_PA attr = 0#64)
    (low : a + count ≤ 2 ^ 27) (enough : 2 * count ≤ s.kmem.free) :
    pagemap root (a * PAGESIZE) (pa * PAGESIZE) (count * PAGESIZE) attr s ≠ .error .undefined := by
  obtain ⟨t, sound⟩ := built.sound
  intro fails
  rcases sound.pagemap_fails bits low fails with ⟨never, -⟩ | ⟨-, few⟩
  · cases never
  · omega

/-- A process that has just got its root. -/
def rootRam : Ram where
  kmem := { freelist := List.range' 0x40001 8, held := false }
  word := Function.update (fun _ _ => 0#64) 0x40000 fun _ => 0#64

theorem rootRam_built : Built 0x40000 rootRam 0 :=
  .empty (s := { kmem := { freelist := List.range' 0x40000 9, held := false }, word := fun _ _ => 0#64 }) (by decide) (by decide) rfl rfl

theorem rootRam_supplied : pagemap 0x40000 (1 * PAGESIZE) (0x4000a * PAGESIZE) (2 * PAGESIZE) (PTE_NORMAL ||| PTE_U) rootRam ≠ .error .undefined :=
  pagemap_supplied rootRam_built (by decide) (by decide) (by decide)

theorem rootRam_translates : MapsRange 0x40000 rootRam 0x1000 0x4000a000 0x2000 (PTE_NORMAL ||| PTE_U) ∧
    ∀ x l3 s', pagewalk 0x40000 x rootRam = .ok (l3, s') → ∀ y, s'.word.translate 0x40000 y = rootRam.word.translate 0x40000 y :=
  pagemap_translates rootRam_built (by decide) (by decide) (by decide) (by decide) (by decide) (by decide)
    rootRam_supplied

/-- Taking pages and mapping them, as `alloc_userspace` and `grow_userspace` do, builds a table. -/
theorem allocPages_built {attr : BitVec 64} (bits : PTE_PA attr = 0#64) (size left : Nat) : ∀ {s : Ram} {taken : Multiset PageNo} {va p : Nat},
    Built root s taken → After (allocPages attr size left root va p) s fun done s' => done = true → ∃ taken', Built root s' taken' := by
  induction left with
  | zero => exact fun _ => After.throw _
  | succ left ih =>
    intro s taken va p built
    unfold allocPages
    split
    · intro done s' run
      obtain ⟨upage, s₁, run₁, rest⟩ := run_bind.1 run
      cases upage with
      | none =>
        cases rest
        nofun
      | some upage =>
        obtain ⟨_, s₂, run₂, rest⟩ := run_bind.1 rest
        exact ih ((built.take run₁).map _ _ _ bits run₂) _ _ rest
    · exact After.pure fun _ => ⟨taken, built⟩

end Built

end Words

end Aarch64Os.Kernel
