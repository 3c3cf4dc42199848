import Mathlib
import Aarch64Os.Kernel.BufHandles

/-!
# The buffer cache as a block store

For one thread the cache is a store of blocks: a pointer from `bio_read` is to the one copy of
its block there is, and a block nobody holds reads as it was last written. The thread may hold
`NBUF` blocks, any but block 0, and fewer than `2 ^ 32` pointers to each.
-/

namespace Aarch64Os.Kernel.Handles
set_option autoImplicit false
open Base

/-- What the thread may call. -/
def Legal (a : OpenStore (BitVec 32) Block) : Call → Prop
  | .read bno => bno ≠ 0 ∧ (bno :: a.handles).dedup.length ≤ NBUF
  | _ => True

/-- A call that does not make `2 ^ 32` pointers to a block. -/
def Few (a : OpenStore (BitVec 32) Block) : Call → Prop
  | .read bno => a.handles.count bno + 1 < 2 ^ 32
  | .dup h => ∀ bno ∈ a.handles[h]?, a.handles.count bno + 1 < 2 ^ 32
  | _ => True

instance (a : OpenStore (BitVec 32) Block) (c : Call) : Decidable (Legal a c) :=
  match c with
  | .read bno => inferInstanceAs (Decidable (bno ≠ 0 ∧ (bno :: a.handles).dedup.length ≤ NBUF))
  | .modify _ _ | .write _ | .dup _ | .free _ => .isTrue trivial

instance (a : OpenStore (BitVec 32) Block) (c : Call) : Decidable (Few a c) :=
  match c with
  | .read bno => inferInstanceAs (Decidable (a.handles.count bno + 1 < 2 ^ 32))
  | .dup h => inferInstanceAs (Decidable (∀ bno ∈ a.handles[h]?, a.handles.count bno + 1 < 2 ^ 32))
  | .modify _ _ | .write _ | .free _ => .isTrue trivial

/-- Runs of the store whose calls all meet a condition. -/
def RunOf (ok : OpenStore (BitVec 32) Block → Call → Prop) :
    OpenStore (BitVec 32) Block → List Call → OpenStore (BitVec 32) Block → Prop
  | a, [], a' => a = a'
  | a, c :: cs, a' => ok a c ∧ ∃ u, a.step c = some u ∧ RunOf ok u cs a'

/-- What `bio_read` would return the data of. -/
def State.reads (s : State) (bno : BitVec 32) : Option Block :=
  (bioRead bno s.fs).toOption.map fun r => (r.2.bcache r.1).data

/-- The cache stands for the store: its pointers are the handles, and a buffer that is held has
the copy of its block. -/
structure Related (a : OpenStore (BitVec 32) Block) (s : State) : Prop where
  running : s.stopped = none
  inv : Inv s
  disk : s.fs.disk = a.stored
  handles : a.handles = s.handles.map fun b => (s.fs.bcache b).bno
  pos : 0 ∉ a.handles
  copy : ∀ b ∈ s.handles, (s.fs.bcache b).valid = true ∧ (s.fs.bcache b).data = a.copy (s.fs.bcache b).bno
  seen : s.seen = a.seen

section Related
variable {a a' : OpenStore (BitVec 32) Block} {s t : State} {c : Call} {b : BufId} {bno : BitVec 32} {h : Nat}

theorem Related.boot (disk : BitVec 32 → Block) : Related (OpenStore.fresh disk) (State.boot disk) where
  running := rfl
  inv := Inv.boot disk
  disk := rfl
  handles := rfl
  pos := List.not_mem_nil
  copy _ mem := absurd mem List.not_mem_nil
  seen := rfl

/-- The block of a pointer. -/
theorem Related.at_handle (r : Related a s) (at_h : s.handles[h]? = some b) : a.handles[h]? = some (s.fs.bcache b).bno := by
  rw [r.handles, List.getElem?_map, at_h]
  rfl

theorem Related.handle (r : Related a s) (at_h : a.handles[h]? = some bno) :
    ∃ b, s.handles[h]? = some b ∧ (s.fs.bcache b).bno = bno := by
  rw [r.handles, List.getElem?_map] at at_h
  exact Option.map_eq_some_iff.1 at_h

/-- A buffer with the number of a block other than 0 is held, and so is the block. -/
theorem Related.mem (r : Related a s) (pos : bno ≠ 0) (own : (s.fs.bcache b).bno = bno) : b ∈ s.handles ∧ bno ∈ a.handles := by
  have used : (s.fs.bcache b).ref ≠ 0 := by
    intro free
    rw [r.inv.clear b free] at own
    exact pos own.symm
  have mem := r.inv.mem used
  refine ⟨mem, ?_⟩
  rw [r.handles, ← own]
  exact List.mem_map_of_mem mem

/-- Its counter is no larger than the number of pointers to the block. -/
theorem Related.count_le (r : Related a s) (b : BufId) : (s.fs.bcache b).ref ≤ a.handles.count (s.fs.bcache b).bno := by
  rw [r.inv.count b, r.handles]
  exact List.count_le_count_map (l := s.handles) (f := fun d => (s.fs.bcache d).bno)

/-- With room for one more block there is a buffer for it. -/
theorem Related.slot (r : Related a s) (few : (bno :: a.handles).dedup.length ≤ NBUF) :
    ∃ b held, s.fs.bcache.slot bno = some (b, held) := by
  by_contra none
  have full : ∀ b, (s.fs.bcache b).bno ≠ bno ∧ (s.fs.bcache b).ref ≠ 0 := by
    intro b
    by_contra room
    have room : s.fs.Room bno := ⟨b, by tauto⟩
    obtain ⟨⟨d, held⟩, found⟩ := room.slot
    exact none ⟨d, held, found⟩
  -- the `NBUF` buffers are held for different blocks, and `bno` is one more
  have inj : Function.Injective fun b => (s.fs.bcache b).bno :=
    fun b d own => r.inv.once b d (full b).2 (full d).2 own
  have fresh : bno ∉ Finset.univ.image fun b => (s.fs.bcache b).bno := by
    intro mem
    obtain ⟨b, -, own⟩ := Finset.mem_image.1 mem
    exact (full b).1 own
  have all : insert bno (Finset.univ.image fun b => (s.fs.bcache b).bno) ⊆ (bno :: a.handles).toFinset := by
    intro x mem
    rcases Finset.mem_insert.1 mem with rfl | mem
    · simp
    · obtain ⟨b, -, rfl⟩ := Finset.mem_image.1 mem
      rw [r.handles]
      simpa using .inr ⟨b, r.inv.mem (full b).2, rfl⟩
  have card := Finset.card_le_card all
  rw [Finset.card_insert_of_notMem fresh, Finset.card_image_of_injective _ inj, Finset.card_univ, Fintype.card_fin,
    List.card_toFinset] at card
  omega

/-- What a read returns: the copy if there is one, or the block on the disk. -/
theorem Related.shows (r : Related a s) (pos : bno ≠ 0) {held : Bool} (slot : s.fs.bcache.slot bno = some (b, held)) :
    ((taken s.fs b bno).bcache b).data = a.shows bno := by
  rw [taken_self]
  cases held with
  | true =>
    have own := Bcache.slot_held slot
    obtain ⟨mem, block⟩ := r.mem pos own
    obtain ⟨valid, data⟩ := r.copy b mem
    rw [OpenStore.shows_held block, if_pos valid, data, own]
  | false =>
    obtain ⟨free, others⟩ := Bcache.slot_free slot
    have closed : bno ∉ a.handles := by
      rw [r.handles]
      intro mem
      obtain ⟨d, -, own⟩ := List.mem_map.1 mem
      exact others d own
    have invalid : (s.fs.bcache b).valid = false := by rw [r.inv.clear b free]; rfl
    rw [OpenStore.shows_closed closed, if_neg (by simp [invalid]), r.disk]

theorem Related.finds (r : Related a s) (legal : Legal a c) (few : Few a c) : Finds s c := by
  cases c with
  | read bno =>
    intro b slot
    have own := Bcache.slot_held slot
    have used := r.inv.held (r.mem legal.1 own).1
    have small := r.count_le b
    rw [own] at small
    simp only [Few] at few
    exact ⟨fun d used' own' => r.inv.once d b used' used (own'.trans own.symm), by omega⟩
  | dup h =>
    intro b at_h
    have few := few _ (r.at_handle at_h)
    have small := r.count_le b
    omega
  | modify h data => trivial
  | write h => trivial
  | free h => trivial

theorem step_read (running : s.stopped = none) {held : Bool} (slot : s.fs.bcache.slot bno = some (b, held)) :
    s.step (.read bno) = some { s with
      fs := wrap (taken s.fs b bno), handles := b :: s.handles, seen := ((taken s.fs b bno).bcache b).data :: s.seen } := by
  simp only [State.step, running, State.call, bioRead_taken slot]
  rfl

/-- A legal read. -/
theorem Related.read (r : Related a s) (legal : Legal a (.read bno)) (few : Few a (.read bno)) :
    ∃ t, s.step (.read bno) = some t ∧ Related { a with
      copy := Function.update a.copy bno (a.shows bno), handles := bno :: a.handles, seen := a.shows bno :: a.seen } t := by
  have finds := r.finds legal few
  obtain ⟨pos, blocks⟩ := legal
  obtain ⟨b, held, slot⟩ := r.slot blocks
  have data := r.shows pos slot
  have step := step_read r.running slot
  have alone : ∀ d ∈ s.handles, d ≠ b → (s.fs.bcache d).bno ≠ bno :=
    fun d mem ne => Finds.alone slot finds d ne (r.inv.held mem)
  refine ⟨_, step, r.running, r.inv.step finds step, r.disk, ?_, ?_, ?_, ?_⟩
  · rw [List.map_cons, r.handles]
    simp only [wrap_bcache, taken_self]
    congr 1
    apply List.map_congr_left
    intro d mem
    rcases eq_or_ne d b with same | ne
    · subst same
      cases held with
      | true => rw [taken_self, Bcache.slot_held slot]
      | false => exact absurd (Bcache.slot_free slot).1 (r.inv.held mem)
    · rw [taken_ne _ _ ne]
  · rw [List.mem_cons, not_or]
    exact ⟨pos.symm, r.pos⟩
  · intro d mem
    rcases eq_or_ne d b with same | ne
    · subst same
      simp only [wrap_bcache, Function.update_self, ← data, taken_self, true_and]
    · have mem : d ∈ s.handles := by simpa [ne] using mem
      simp only [wrap_bcache, taken_ne _ _ ne, Function.update_of_ne (alone d mem ne)]
      exact r.copy d mem
  · rw [data, r.seen]

/-- A buffer that is held gets new data, and the disk perhaps too. -/
theorem Related.store (r : Related a s) (at_h : s.handles[h]? = some b) {f : Buf → Buf} {data : Block} (disk : BitVec 32 → Block)
    (same : ∀ x, (f x).bno = x.bno ∧ (f x).ref = x.ref) (valid : (f (s.fs.bcache b)).valid = true)
    (now : (f (s.fs.bcache b)).data = data) :
    Related { a with copy := Function.update a.copy (s.fs.bcache b).bno data, stored := disk }
      { s with fs := wrap { s.fs with disk := disk, bcache := s.fs.bcache.set b f } } := by
  have mem := List.mem_of_getElem? at_h
  have bno : ∀ d, (s.fs.bcache.set b f d).bno = (s.fs.bcache d).bno := by
    intro d
    rcases eq_or_ne d b with rfl | ne
    · rw [Bcache.set_self, (same _).1]
    · rw [Bcache.set_ne _ _ ne]
  refine ⟨r.running, ?_, rfl, ?_, r.pos, ?_, r.seen⟩
  · apply r.inv.data mem
    · exact fun d ne => Bcache.set_ne _ _ ne
    · show (s.fs.bcache.set b f b).ref = _
      rw [Bcache.set_self, (same _).2]
    · exact bno b
  · show a.handles = _
    simp only [wrap_bcache, bno]
    exact r.handles
  · intro d mem'
    simp only [wrap_bcache, bno]
    rcases eq_or_ne d b with rfl | ne
    · rw [Bcache.set_self, Function.update_self]
      exact ⟨valid, now⟩
    · have other : (s.fs.bcache d).bno ≠ (s.fs.bcache b).bno := r.inv.alone_held mem d ne (r.inv.held mem')
      rw [Bcache.set_ne _ _ ne, Function.update_of_ne other]
      exact r.copy d mem'

theorem step_dup (running : s.stopped = none) (at_h : s.handles[h]? = some b) : s.step (.dup h) = some { s with
    fs := wrap { s.fs with bcache := s.fs.bcache.set b fun x => { x with ref := x.ref + 1 } }, handles := b :: s.handles } := by
  simp only [State.step, running, at_h]
  rfl

/-- One more pointer to a buffer that is held. -/
theorem Related.dup (r : Related a s) (at_h : s.handles[h]? = some b) (few : Few a (.dup h)) :
    Related { a with handles := (s.fs.bcache b).bno :: a.handles }
      { s with fs := wrap { s.fs with bcache := s.fs.bcache.set b fun x => { x with ref := x.ref + 1 } },
               handles := b :: s.handles } := by
  have mem := List.mem_of_getElem? at_h
  have step := step_dup r.running at_h
  have same : ∀ d, (s.fs.bcache.set b (fun x => { x with ref := x.ref + 1 }) d).bno = (s.fs.bcache d).bno ∧
      (s.fs.bcache.set b (fun x => { x with ref := x.ref + 1 }) d).valid = (s.fs.bcache d).valid ∧
      (s.fs.bcache.set b (fun x => { x with ref := x.ref + 1 }) d).data = (s.fs.bcache d).data := by
    intro d
    rcases eq_or_ne d b with rfl | ne
    · simp only [Bcache.set_self, and_self]
    · simp only [Bcache.set_ne _ _ ne, and_self]
  have finds : Finds s (.dup h) := r.finds trivial few
  refine ⟨r.running, r.inv.step finds step, r.disk, ?_, ?_, ?_, r.seen⟩
  · simp only [wrap_bcache, same, List.map_cons, r.handles]
  · rw [List.mem_cons, not_or]
    refine ⟨fun zero => r.pos ?_, r.pos⟩
    rw [zero]
    exact List.mem_of_getElem? (r.at_handle at_h)
  · intro d mem'
    simp only [wrap_bcache, same]
    rcases List.mem_cons.1 mem' with rfl | mem'
    · exact r.copy d mem
    · exact r.copy d mem'

/-- One pointer less; a buffer that is still held is as it was. -/
theorem Related.free (r : Related a s) (at_h : s.handles[h]? = some b) :
    ∃ t, s.step (.free h) = some t ∧ Related { a with handles := a.handles.eraseIdx h } t := by
  have mem := List.mem_of_getElem? at_h
  have used := r.inv.held mem
  have run : bioFree b s.fs = .ok ((), { s.fs with bcache := s.fs.bcache.set b fun x =>
      if x.ref - 1 = 0 then Buf.zero else { x with ref := x.ref - 1 } }) := if_neg used
  have step : s.step (.free h) = some { s with
      fs := wrap { s.fs with bcache := s.fs.bcache.set b fun x =>
        if x.ref - 1 = 0 then Buf.zero else { x with ref := x.ref - 1 } }, handles := s.handles.eraseIdx h } := by
    simp [State.step, r.running, at_h, State.call, run]
  have kept : ∀ d ∈ s.handles.eraseIdx h,
      (s.fs.bcache.set b (fun x => if x.ref - 1 = 0 then Buf.zero else { x with ref := x.ref - 1 }) d).bno = (s.fs.bcache d).bno ∧
      (s.fs.bcache.set b (fun x => if x.ref - 1 = 0 then Buf.zero else { x with ref := x.ref - 1 }) d).valid =
        (s.fs.bcache d).valid ∧
      (s.fs.bcache.set b (fun x => if x.ref - 1 = 0 then Buf.zero else { x with ref := x.ref - 1 }) d).data =
        (s.fs.bcache d).data := by
    intro d left
    rcases eq_or_ne d b with rfl | ne
    · have count := count_eraseIdx at_h d
      have more := List.count_pos_iff.2 left
      rw [if_pos rfl, ← r.inv.count d] at count
      rw [Bcache.set_self, if_neg (by omega)]
      exact ⟨rfl, rfl, rfl⟩
    · simp only [Bcache.set_ne _ _ ne, and_self]
  have finds : Finds s (.free h) := trivial
  refine ⟨_, step, r.running, r.inv.step finds step, r.disk, ?_, ?_, ?_, r.seen⟩
  · show a.handles.eraseIdx h = _
    rw [r.handles, List.eraseIdx_map]
    apply List.map_congr_left
    intro d left
    exact (kept d left).1.symm
  · exact fun zero => r.pos (List.mem_of_mem_eraseIdx zero)
  · intro d left
    simp only [wrap_bcache, kept d left]
    exact r.copy d (List.mem_of_mem_eraseIdx left)

/-- **Simulation.** What the store does, the cache does. -/
theorem Related.step (r : Related a s) (legal : Legal a c) (few : Few a c) (step : a.step c = some a') :
    ∃ t, s.step c = some t ∧ Related a' t := by
  cases c with
  | read bno =>
    cases step
    exact r.read legal few
  | modify h data =>
    obtain ⟨bno, at_h, rfl⟩ := Option.map_eq_some_iff.1 step
    obtain ⟨b, at_h', rfl⟩ := r.handle at_h
    have valid := (r.copy b (List.mem_of_getElem? at_h')).1
    have next := r.store at_h' (f := fun x => { x with data := data }) s.fs.disk (fun _ => ⟨rfl, rfl⟩) valid rfl
    rw [r.disk] at next
    refine ⟨_, ?_, next⟩
    simp [State.step, r.running, at_h', State.call, setBufData, r.disk]
  | write h =>
    obtain ⟨bno, at_h, rfl⟩ := Option.map_eq_some_iff.1 step
    obtain ⟨b, at_h', rfl⟩ := r.handle at_h
    have data := (r.copy b (List.mem_of_getElem? at_h')).2
    have next := r.store at_h' (f := fun x => { x with valid := true })
      (Function.update a.stored (s.fs.bcache b).bno (a.copy (s.fs.bcache b).bno)) (fun _ => ⟨rfl, rfl⟩) rfl data
    rw [Function.update_eq_self] at next
    refine ⟨_, ?_, next⟩
    simp [State.step, r.running, at_h', State.call, bioWrite, r.disk, data]
  | dup h =>
    obtain ⟨bno, at_h, rfl⟩ := Option.map_eq_some_iff.1 step
    obtain ⟨b, at_h', rfl⟩ := r.handle at_h
    exact ⟨_, step_dup r.running at_h', r.dup at_h' few⟩
  | free h =>
    obtain ⟨bno, at_h, rfl⟩ := Option.map_eq_some_iff.1 step
    obtain ⟨b, at_h', rfl⟩ := r.handle at_h
    exact r.free at_h'

/-- What a legal read returns. -/
theorem Related.reads (r : Related a s) (legal : Legal a (.read bno)) : s.reads bno = some (a.shows bno) := by
  obtain ⟨b, held, slot⟩ := r.slot legal.2
  rw [State.reads, bioRead_taken slot, ← r.shows legal.1 slot]
  rfl

end Related

/-- Every run of the store is one of the cache. -/
theorem Related.run {calls : List Call} : ∀ {a a' : OpenStore (BitVec 32) Block} {s : State}, Related a s →
    RunOf (fun a c => Legal a c ∧ Few a c) a calls a' → ∃ t, handleSystem.run s calls = some t ∧ Related a' t := by
  induction calls with
  | nil =>
    intro a a' s r run
    cases run
    exact ⟨s, rfl, r⟩
  | cons c cs ih =>
    rintro a a' s r ⟨⟨legal, few⟩, u, step, rest⟩
    obtain ⟨t, step', r'⟩ := r.step legal few step
    obtain ⟨v, run, r''⟩ := ih r' rest
    exact ⟨v, (handleSystem.run_cons step' cs).trans run, r''⟩

/-- **The buffer cache is a block store** for one thread with fewer than `2 ^ 32` pointers to
each block: its reads return what the store returns, and a call about one block leaves what a
read of another returns. -/
theorem cache_is_block_store (disk : BitVec 32 → Block) (calls : List Call) (a : OpenStore (BitVec 32) Block)
    (run : RunOf (fun a c => Legal a c ∧ Few a c) (.fresh disk) calls a) :
    ∃ s, handleSystem.run (State.boot disk) calls = some s ∧ s.stopped = none ∧ s.seen = a.seen ∧
      (∀ bno, Legal a (.read bno) → s.reads bno = some (a.shows bno)) ∧
      ∀ c a', Legal a c → Few a c → a.step c = some a' → ∃ t, s.step c = some t ∧
        ∀ bno, a.subject c ≠ some bno → Legal a (.read bno) → Legal a' (.read bno) → t.reads bno = s.reads bno := by
  obtain ⟨s, run', r⟩ := (Related.boot disk).run run
  refine ⟨s, run', r.running, r.seen, fun bno legal => r.reads legal, fun c a' legal few step => ?_⟩
  obtain ⟨t, step', r'⟩ := r.step legal few step
  refine ⟨t, step', fun bno other before after => ?_⟩
  rw [r'.reads after, r.reads before, OpenStore.step_shows step other]

/-- A disk whose block `n` is full of `n`. -/
def numbered (n : BitVec 32) : Block := fun _ => n.setWidth 8

/-- Block 1 is read, changed without being written, and read again through a second pointer;
block 2 is as it was on the disk. -/
theorem cache_is_block_store_nested : ∃ s, handleSystem.run (State.boot numbered)
      [.read 1, .modify 0 fun _ => 7, .read 1, .read 2] = some s ∧ s.stopped = none ∧
      s.seen = [fun _ => 2, fun _ => 7, fun _ => 1] := by
  obtain ⟨s, run, running, seen, -⟩ := cache_is_block_store numbered [.read 1, .modify 0 fun _ => 7, .read 1, .read 2] _
    ⟨⟨by decide, by decide⟩, _, rfl, ⟨trivial, trivial⟩, _, rfl, ⟨by decide, by decide⟩, _, rfl, ⟨by decide, by decide⟩, _, rfl, rfl⟩
  exact ⟨s, run, running, seen⟩

section Overflow
variable {s : State} {b : BufId}

/-- `n` more pointers to a buffer. -/
theorem run_dups (n : Nat) : ∀ {s : State}, s.stopped = none → s.handles[0]? = some b → (∀ d, (s.fs.bcache d).ref < 2 ^ 32) →
    ∃ t, handleSystem.run s (List.replicate n (.dup 0)) = some t ∧ t.stopped = none ∧ t.seen = s.seen ∧ t.fs.disk = s.fs.disk ∧
      t.fs.bcache = s.fs.bcache.set b fun x => { x with ref := (x.ref + n) % 2 ^ 32 } := by
  induction n with
  | zero =>
    intro s running at_zero small
    refine ⟨s, rfl, running, rfl, rfl, ?_⟩
    rw [Bcache.set, Nat.add_zero, Nat.mod_eq_of_lt (small b)]
    exact (Function.update_eq_self ..).symm
  | succ n ih =>
    intro s running at_zero small
    obtain ⟨u, step, running', at_zero', seen, disk, cache⟩ : ∃ u, s.step (.dup 0) = some u ∧ u.stopped = none ∧
        u.handles[0]? = some b ∧ u.seen = s.seen ∧ u.fs.disk = s.fs.disk ∧
        u.fs.bcache = s.fs.bcache.set b fun x => { x with ref := (x.ref + 1) % 2 ^ 32 } := by
      refine ⟨_, step_dup running at_zero, running, rfl, rfl, rfl, ?_⟩
      funext d
      rcases eq_or_ne d b with rfl | ne
      · simp only [wrap_bcache, Bcache.set_self]
      · simp only [wrap_bcache, Bcache.set_ne _ _ ne, Nat.mod_eq_of_lt (small d)]
    have small' : ∀ d, (u.fs.bcache d).ref < 2 ^ 32 := by
      intro d
      rw [cache]
      rcases eq_or_ne d b with rfl | ne
      · rw [Bcache.set_self]
        exact Nat.mod_lt _ (Nat.two_pow_pos 32)
      · rw [Bcache.set_ne _ _ ne]
        exact small d
    obtain ⟨t, run, running'', seen', disk', cache'⟩ := ih running' at_zero' small'
    have step : handleSystem.step s (.dup 0) = some u := step
    refine ⟨t, (handleSystem.run_cons step _).trans run, running'', seen'.trans seen, disk'.trans disk, ?_⟩
    rw [cache', cache, Bcache.set_set]
    congr 1
    funext x
    rw [Nat.mod_add_mod, Nat.add_assoc, Nat.add_comm 1 n]

/-- The same calls on the store. -/
theorem store_dups {bno : BitVec 32} (n : Nat) : ∀ {a a' : OpenStore (BitVec 32) Block} {cs : List Call}, a.handles[0]? = some bno →
    RunOf Legal { a with handles := List.replicate n bno ++ a.handles } cs a' →
      RunOf Legal a (List.replicate n (.dup 0) ++ cs) a' := by
  induction n with
  | zero =>
    intro a a' cs _ rest
    exact rest
  | succ n ih =>
    intro a a' cs at_zero rest
    refine ⟨trivial, { a with handles := bno :: a.handles }, by simp [OpenStore.step, at_zero], ih rfl ?_⟩
    rw [List.replicate_succ', List.append_assoc] at rest
    exact rest

/-- Block 1 is read, `n` more pointers to it are made, and block 2 is read. -/
theorem store_reads (n : Nat) : ∃ a, RunOf Legal (.fresh numbered) (.read 1 :: (List.replicate n (.dup 0) ++ [.read 2])) a ∧
    a.seen = [numbered 2, numbered 1] := by
  have other : 2#32 ∉ List.replicate n 1#32 ++ [1#32] := by simp
  have two : (2#32 :: (List.replicate n 1#32 ++ [1#32])).dedup.length ≤ NBUF := by
    rw [← List.card_toFinset]
    have sub : (2#32 :: (List.replicate n 1#32 ++ [1#32])).toFinset ⊆ {2#32, 1#32} := by
      intro x mem
      simp only [List.toFinset_cons, Finset.mem_insert, List.mem_toFinset, List.mem_append, List.mem_replicate,
        List.mem_singleton, Finset.mem_singleton] at mem ⊢
      tauto
    exact (Finset.card_le_card sub).trans (by decide)
  refine ⟨_, ⟨by decide, _, rfl, store_dups n rfl ⟨⟨by decide, two⟩, _, rfl, rfl⟩⟩, ?_⟩
  show [OpenStore.shows _ 2#32, numbered 1] = _
  rw [OpenStore.shows_closed other]
  rfl

end Overflow

/-- With `2 ^ 32` pointers to block 1 its buffer counts none, and a read of block 2 takes the
buffer and returns block 1. -/
theorem counter_overflow_mixes_blocks : ∃ calls a s, RunOf Legal (.fresh numbered) calls a ∧
    handleSystem.run (State.boot numbered) calls = some s ∧ s.stopped = none ∧
    a.seen = [numbered 2, numbered 1] ∧ s.seen = [numbered 1, numbered 1] ∧ s.seen ≠ a.seen := by
  obtain ⟨n, last⟩ : ∃ n, n = 2 ^ 32 - 1 := ⟨_, rfl⟩
  obtain ⟨a, store, shown⟩ := store_reads n
  have fresh : (State.boot numbered).fs.bcache.slot 1 = some (0, false) := by decide
  obtain ⟨s, first, running, at_zero, seen, held, others⟩ : ∃ s, handleSystem.step (State.boot numbered) (.read 1) = some s ∧
      s.stopped = none ∧ s.handles[0]? = some 0 ∧ s.seen = [numbered 1] ∧
      s.fs.bcache 0 = { data := numbered 1, bno := 1, ref := 1, valid := true } ∧ ∀ d, d ≠ 0 → s.fs.bcache d = Buf.zero := by
    refine ⟨_, step_read rfl fresh, rfl, rfl, rfl, rfl, fun d ne => ?_⟩
    rw [wrap_bcache, taken_ne _ _ ne]
    rfl
  have small : ∀ d, (s.fs.bcache d).ref < 2 ^ 32 := by
    intro d
    rcases eq_or_ne d 0 with rfl | ne
    · rw [held]
      decide
    · rw [others d ne]
      decide
  obtain ⟨t, dups, running', seen', -, cache⟩ := run_dups n running at_zero small
  have reused : t.fs.bcache 0 = { data := numbered 1, bno := 1, ref := 0, valid := true } := by
    rw [cache, Bcache.set_self, held, last]
    rfl
  have unused : ∀ d, d ≠ 0 → t.fs.bcache d = Buf.zero := by
    intro d ne
    rw [cache, Bcache.set_ne _ _ ne, others d ne]
  have slot : t.fs.bcache.slot 2 = some (0, false) := by
    have missing : (List.finRange NBUF).find? (fun i => (t.fs.bcache i).bno = 2) = none := by
      apply List.find?_eq_none.2
      intro d _
      rcases eq_or_ne d 0 with rfl | ne
      · rw [reused]
        decide
      · rw [unused d ne]
        decide
    have free : (List.finRange NBUF).find? (fun i => (t.fs.bcache i).ref = 0) = some 0 := by
      rw [List.finRange_succ, List.find?_cons_of_pos]
      rw [reused]
      rfl
    rw [Bcache.slot, missing, free]
    rfl
  have third : handleSystem.step t (.read 2) = some _ := step_read running' slot
  have run := (handleSystem.run_append dups [.read 2]).trans (handleSystem.run_cons third [])
  have mixed : ((taken t.fs 0 2).bcache 0).data :: t.seen = [numbered 1, numbered 1] := by
    rw [taken_self, reused, seen', seen]
    rfl
  refine ⟨_, a, _, store, (handleSystem.run_cons first _).trans run, running', shown, mixed, fun same => ?_⟩
  rw [shown] at same
  have blocks := congrFun (List.cons.inj (mixed.symm.trans same)).1 0
  exact absurd blocks (by decide)

end Aarch64Os.Kernel.Handles
