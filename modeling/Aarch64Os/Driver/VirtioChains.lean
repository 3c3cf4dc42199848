import Aarch64Os.Base.Counting
import Aarch64Os.Base.LinkedCells
import Aarch64Os.Driver.VirtioSystem

/-!
# The free list and the chains in flight

The invariant of `struct virtq`: the free list met from `free_head` is linked through
descriptors that carry `VIRTQ_DESC_F_NEXT`, except perhaps its last one (whose stale
link is never followed); the chains taken by processes are linked, disjoint from it and
from each other; and together they are all `NQUEUE` descriptors. Only three kinds of
step touch it: taking a descriptor, returning a chain, and steps that leave the links
alone.
-/

namespace Aarch64Os.Driver
set_option autoImplicit false
open Base
open Kernel (NPROC ProcId)

/-- The links a process relies on in the descriptors it has taken. -/
def Pc.Linked (desc : Fin NQUEUE → Desc) : Pc → Prop
  | .out | .enter _ | .first _ => True
  | .second _ d0 => (desc d0).hasNext = true
  | .third _ d0 d1 => (desc d0).hasNext = true ∧ (desc d0).next = d1 ∧ (desc d1).hasNext = true
  | .ready c | .test c | .asleep c | .awake c | .dead c =>
    (desc c.d0).hasNext = true ∧ (desc c.d0).next = c.d1 ∧ (desc c.d1).hasNext = true ∧
      (desc c.d1).next = c.d2 ∧ (desc c.d2).hasNext = false

theorem Pc.linked_wake (desc : Fin NQUEUE → Desc) (pc : Pc) (chan : Option BufPtr) :
    (pc.wake chan).Linked desc ↔ pc.Linked desc := by
  cases pc <;> simp only [Pc.wake]
  split <;> rfl

theorem Pc.linked_rouse (desc : Fin NQUEUE → Desc) (pc : Pc) : pc.rouse.Linked desc ↔ pc.Linked desc := by
  cases pc <;> rfl

/-- The links depend only on the descriptors taken. -/
theorem Pc.Linked.congr {desc desc' : Fin NQUEUE → Desc} {pc : Pc} (h : pc.Linked desc)
    (same : ∀ d ∈ pc.held, desc' d = desc d) : pc.Linked desc' := by
  cases pc <;> simp only [Pc.Linked, Pc.held, List.mem_cons, List.not_mem_nil, or_false, forall_eq_or_imp,
    forall_eq] at h same ⊢
  · rw [same]; exact h
  · rw [same.1, same.2]; exact h
  all_goals rw [same.1, same.2.1, same.2.2]; exact h

/-- The invariant of the queue and the processes in it. -/
structure ChainInv (vq : Virtq) (pc : ProcId → Pc) : Prop where
  /-- the free descriptors are distinct -/
  nodup : vq.cells.Nodup
  /-- all free descriptors but the last are flagged as linked -/
  links : ∀ d ∈ vq.cells.dropLast, (vq.desc d).hasNext = true
  /-- a process holds distinct descriptors -/
  heldNodup : ∀ p, (pc p).held.Nodup
  /-- none of them is free -/
  heldTaken : ∀ p, ∀ d ∈ (pc p).held, d ∉ vq.cells
  /-- two processes hold different ones -/
  disjoint : ∀ p q, p ≠ q → (pc p).held.Disjoint (pc q).held
  /-- they are linked as `virtio_blk_op` linked them -/
  linked : ∀ p, (pc p).Linked vq.desc
  /-- nothing is lost -/
  count : vq.nfree + ∑ p, (pc p).held.length = NQUEUE

/-- Only the descriptor table, `free_head` and `nfree` matter, and what each process holds. -/
theorem ChainInv.quiet {vq vq' : Virtq} {pc pc' : ProcId → Pc} (h : ChainInv vq pc)
    (desc : vq'.desc = vq.desc) (head : vq'.freeHead = vq.freeHead) (nfree : vq'.nfree = vq.nfree)
    (held : ∀ p, (pc' p).held = (pc p).held) (linked : ∀ p, (pc p).Linked vq.desc → (pc' p).Linked vq.desc) :
    ChainInv vq' pc' := by
  have cells : vq'.cells = vq.cells := by simp only [Virtq.cells, desc, head, nfree]
  constructor
  · rw [cells]; exact h.nodup
  · rw [cells, desc]; exact h.links
  · intro p; rw [held]; exact h.heldNodup p
  · intro p; rw [held, cells]; exact h.heldTaken p
  · intro p q ne; rw [held, held]; exact h.disjoint p q ne
  · intro p; rw [desc]; exact linked p (h.linked p)
  · simp only [nfree, held]; exact h.count

/-- Moving one process without touching its chain. -/
theorem ChainInv.move {vq vq' : Virtq} {pc : ProcId → Pc} {p : ProcId} {x : Pc} (h : ChainInv vq pc)
    (desc : vq'.desc = vq.desc) (head : vq'.freeHead = vq.freeHead) (nfree : vq'.nfree = vq.nfree)
    (held : x.held = (pc p).held) (linked : (pc p).Linked vq.desc → x.Linked vq.desc) :
    ChainInv vq' (Function.update pc p x) := by
  refine h.quiet desc head nfree (fun q => ?_) (fun q => ?_)
  all_goals
    by_cases e : q = p
    · subst e; simpa using ‹_›
    · simp [Function.update_of_ne e]

/-- A nonempty free list is its head and the list left by `alloc_desc`. -/
theorem ChainInv.cells_pop {vq vq' : Virtq} {pc : ProcId → Pc} (h : ChainInv vq pc) (pos : 0 < vq.nfree)
    (head : vq'.freeHead = vq.pop.freeHead) (nfree : vq'.nfree = vq.pop.nfree)
    (desc : ∀ d ∈ vq.cells, d ≠ vq.freeHead → vq'.desc d = vq.desc d) :
    vq.cells = vq.freeHead :: vq'.cells := by
  obtain ⟨n, hn⟩ : ∃ n, vq.nfree = n + 1 := ⟨vq.nfree - 1, by omega⟩
  have split : vq.cells = vq.freeHead :: List.iterate (fun d => (vq.desc d).next) (vq.desc vq.freeHead).next n := by
    unfold Virtq.cells; rw [hn]; rfl
  have nodup := h.nodup
  rw [split, List.nodup_cons] at nodup
  rw [split]
  congr 1
  unfold Virtq.cells
  rw [nfree, head]
  simp only [Virtq.pop, hn, Nat.add_sub_cancel]
  cases n with
  | zero => rfl
  | succ n =>
    have flagged : (vq.desc vq.freeHead).hasNext = true := by
      refine h.links _ ?_
      rw [split]
      exact List.mem_cons_self ..
    rw [if_pos flagged]
    refine (iterate_congr fun d hd => ?_).symm
    have ne : d ≠ vq.freeHead := fun e => nodup.1 (e ▸ hd)
    rw [desc d (by rw [split]; exact List.mem_cons_of_mem _ hd) ne]

/-- **Taking a descriptor.** Process `p` takes the head of the free list and fills only
descriptors that it holds. -/
theorem ChainInv.take {vq vq' : Virtq} {pc : ProcId → Pc} {p : ProcId} {x : Pc} (h : ChainInv vq pc)
    (pos : 0 < vq.nfree) (head : vq'.freeHead = vq.pop.freeHead) (nfree : vq'.nfree = vq.pop.nfree)
    (held : x.held = (pc p).held ++ [vq.freeHead]) (desc : ∀ d, d ∉ x.held → vq'.desc d = vq.desc d)
    (linked : x.Linked vq'.desc) : ChainInv vq' (Function.update pc p x) := by
  have outside : ∀ d ∈ vq.cells, d ≠ vq.freeHead → vq'.desc d = vq.desc d := by
    intro d hd ne
    refine desc d fun hx => ?_
    rw [held, List.mem_append, List.mem_singleton] at hx
    exact hx.elim (fun hx => h.heldTaken p d hx hd) ne
  have cells := h.cells_pop pos head nfree outside
  have nodup := h.nodup
  rw [cells, List.nodup_cons] at nodup
  have headFree : vq.freeHead ∈ vq.cells := by rw [cells]; exact List.mem_cons_self ..
  have mem_held : ∀ q d, d ∈ (Function.update pc p x q).held → d ∈ (pc q).held ∨ q = p ∧ d = vq.freeHead := by
    intro q d hd
    by_cases e : q = p
    · subst e
      rw [Function.update_self, held, List.mem_append, List.mem_singleton] at hd
      exact hd.imp_right fun hd => ⟨rfl, hd⟩
    · rw [Function.update_of_ne e] at hd
      exact .inl hd
  constructor
  · exact nodup.2
  · intro d hd
    have hd' : d ∈ vq'.cells := List.dropLast_subset _ hd
    rw [outside d (by rw [cells]; exact List.mem_cons_of_mem _ hd') fun e => nodup.1 (e ▸ hd')]
    refine h.links d ?_
    rw [cells, List.dropLast_cons_of_ne_nil (List.ne_nil_of_mem hd')]
    exact List.mem_cons_of_mem _ hd
  · intro q
    by_cases e : q = p
    · subst e
      rw [Function.update_self, held]
      refine List.Nodup.append (h.heldNodup q) (List.nodup_singleton _) ?_
      intro d hd hd'
      rw [List.mem_singleton] at hd'
      exact h.heldTaken q d hd (hd' ▸ headFree)
    · rw [Function.update_of_ne e]; exact h.heldNodup q
  · intro q d hd hc
    rcases mem_held q d hd with hd | ⟨-, rfl⟩
    · exact h.heldTaken q d hd (by rw [cells]; exact List.mem_cons_of_mem _ hc)
    · exact nodup.1 hc
  · intro q r ne d hq hr
    rcases mem_held q d hq with hq | ⟨eq, hq⟩ <;> rcases mem_held r d hr with hr | ⟨er, hr⟩
    · exact h.disjoint q r ne hq hr
    · exact h.heldTaken q d hq (hr ▸ headFree)
    · exact h.heldTaken r d hr (hq ▸ headFree)
    · exact ne (eq.trans er.symm)
  · intro q
    by_cases e : q = p
    · subst e; rw [Function.update_self]; exact linked
    · rw [Function.update_of_ne e]
      refine (h.linked q).congr fun d hd => desc d fun hx => ?_
      rw [held, List.mem_append, List.mem_singleton] at hx
      rcases hx with hx | rfl
      · exact h.disjoint q p e hd hx
      · exact h.heldTaken q _ hd headFree
  · have total := sum_update (fun x : Pc => x.held.length) pc p x
    have count := h.count
    simp only [held, List.length_append, List.length_singleton] at total
    simp only [nfree, Virtq.pop]
    omega

/-- What `free_desc` leaves of a chain of three. -/
theorem freeDesc_three {vq vq' : Virtq} {d0 d1 d2 : Fin NQUEUE} (h0 : (vq.desc d0).hasNext = true)
    (n0 : (vq.desc d0).next = d1) (h1 : (vq.desc d1).hasNext = true) (n1 : (vq.desc d1).next = d2)
    (h2 : (vq.desc d2).hasNext = false) (h : freeDesc vq d0 = some vq') :
    vq'.freeHead = d0 ∧ vq'.nfree = vq.nfree + 3 ∧ (vq'.desc d2).hasNext = true ∧
      (vq.nfree = 0 ∨ (vq'.desc d2).next = vq.freeHead) ∧ ∀ d, d ≠ d2 → vq'.desc d = vq.desc d := by
  unfold freeDesc at h
  rw [walk_three h0 n0 h1 n1 h2] at h
  cases h
  refine ⟨rfl, rfl, ?_, ?_, fun d ne => ?_⟩
  · simp [Virtq.setDesc]
  · by_cases empty : vq.nfree = 0
    · exact .inl empty
    · right; simp [Virtq.setDesc, empty]
  · simp [Virtq.setDesc, Function.update_of_ne ne]

/-- **Returning a chain.** -/
theorem ChainInv.finish {vq vq' : Virtq} {pc : ProcId → Pc} {p : ProcId} {c : Chain} (h : ChainInv vq pc)
    (at_p : pc p = .test c) (freed : freeDesc vq c.d0 = some vq') : ChainInv vq' (Function.update pc p .out) := by
  have linked := h.linked p
  have held := h.heldNodup p
  have taken := h.heldTaken p
  rw [at_p] at linked held taken
  obtain ⟨h0, n0, h1, n1, h2⟩ := linked
  obtain ⟨head, nfree, flag, link, desc⟩ := freeDesc_three h0 n0 h1 n1 h2 freed
  simp only [Pc.held, List.nodup_cons, List.mem_cons, List.not_mem_nil, or_false, not_or] at held taken
  obtain ⟨⟨ne01, ne02⟩, ne12, -⟩ := held
  have old : List.iterate (fun d => (vq'.desc d).next) vq.freeHead vq.nfree = vq.cells :=
    iterate_congr fun d hd => by
      have ne : d ≠ c.d2 := fun e => taken c.d2 (.inr (.inr rfl)) (e ▸ hd)
      rw [desc d ne]
  have cells : vq'.cells = c.d0 :: c.d1 :: c.d2 :: vq.cells := by
    have e0 : (vq'.desc c.d0).next = c.d1 := by rw [desc _ ne02, n0]
    have e1 : (vq'.desc c.d1).next = c.d2 := by rw [desc _ ne12, n1]
    have push2 := iterate_push (f := fun d => (vq'.desc d).next) link
    have push1 := iterate_push (n := vq.nfree + 1) (f := fun d => (vq'.desc d).next) (.inr e1)
    have push0 := iterate_push (n := vq.nfree + 2) (f := fun d => (vq'.desc d).next) (.inr e0)
    unfold Virtq.cells
    rw [head, nfree, push0, push1, push2, old]
    rfl
  have elsewhere : ∀ q, q ≠ p → ∀ d ∈ (pc q).held, d ≠ c.d0 ∧ d ≠ c.d1 ∧ d ≠ c.d2 := by
    intro q ne d hd
    have apart := h.disjoint q p ne hd
    rw [at_p] at apart
    simpa [Pc.held] using apart
  constructor
  · rw [cells]
    simp only [List.nodup_cons, List.mem_cons, not_or]
    exact ⟨⟨ne01, ne02, taken _ (.inl rfl)⟩, ⟨ne12, taken _ (.inr (.inl rfl))⟩, taken _ (.inr (.inr rfl)), h.nodup⟩
  · rw [cells]
    intro d hd
    have hd' : d ∈ c.d0 :: c.d1 :: c.d2 :: vq.cells.dropLast := by
      cases hcells : vq.cells with
      | nil => rw [hcells] at hd; simp at hd ⊢; tauto
      | cons a l => rw [hcells] at hd; simpa using hd
    by_cases e : d = c.d2
    · rw [e]; exact flag
    · rw [desc d e]
      simp only [List.mem_cons] at hd'
      rcases hd' with rfl | rfl | rfl | hd'
      · exact h0
      · exact h1
      · exact absurd rfl e
      · exact h.links d hd'
  · intro q
    by_cases e : q = p
    · subst e; simp [Pc.held]
    · rw [Function.update_of_ne e]; exact h.heldNodup q
  · intro q d hd hc
    by_cases e : q = p
    · subst e; simp [Pc.held] at hd
    · rw [Function.update_of_ne e] at hd
      obtain ⟨a, b, c⟩ := elsewhere q e d hd
      rw [cells] at hc
      simp only [List.mem_cons, a, b, c, false_or] at hc
      exact h.heldTaken q d hd hc
  · intro q r ne d hq hr
    by_cases e : q = p
    · subst e; simp [Pc.held] at hq
    · by_cases e' : r = p
      · subst e'; simp [Pc.held] at hr
      · rw [Function.update_of_ne e] at hq
        rw [Function.update_of_ne e'] at hr
        exact h.disjoint q r ne hq hr
  · intro q
    by_cases e : q = p
    · subst e; rw [Function.update_self]; trivial
    · rw [Function.update_of_ne e]
      exact (h.linked q).congr fun d hd => desc d (elsewhere q e d hd).2.2
  · have total := sum_update (fun x : Pc => x.held.length) pc p .out
    have count := h.count
    have three : (pc p).held.length = 3 := by rw [at_p]; rfl
    have zero : Pc.out.held.length = 0 := rfl
    simp only [three, zero] at total
    omega

theorem chainInv_boot : ChainInv State.boot.vq State.boot.pc := by
  have cells : State.boot.vq.cells = [0, 1, 2, 3, 4, 5, 6, 7] := by decide
  constructor
  · rw [cells]; decide
  · rw [cells]; decide
  · intro p; exact List.nodup_nil
  · intro p d hd; cases hd
  · intro p q _ d hd; cases hd
  · intro p; trivial
  · simp [State.boot, Pc.held, virtqInit, descInit]

/-- One step keeps the invariant. -/
theorem ChainInv.step {s t : State} {a : Label} (h : ChainInv s.vq s.pc) (st : Step s a t) :
    ChainInv t.vq t.pc := by
  cases st with
  | @call p r out => exact h.move rfl rfl rfl (by rw [out]; rfl) fun _ => trivial
  | @enter p r free out => exact h.move rfl rfl rfl (by rw [out]; rfl) fun _ => trivial
  | @wake p c free out =>
    refine h.move rfl rfl rfl ?_ fun l => ?_
    · rw [out]; split <;> rfl
    · rw [out] at l; split <;> exact l
  | exhausted => exact h
  | @first p r pos out =>
    refine h.take pos rfl rfl (by rw [out]; rfl) (fun d hd => ?_) ?_
    · simp only [Pc.held, List.mem_singleton] at hd
      simp [fillHdr, Virtq.setDesc, Virtq.pop, Function.update_of_ne hd]
    · simp [Pc.Linked, fillHdr, Virtq.setDesc]
  | @second p r d0 pos out =>
    have linked := h.linked p
    have taken := h.heldTaken p d0 (by rw [out]; exact List.mem_singleton_self _)
    have ne : d0 ≠ s.vq.freeHead := by
      rintro rfl
      exact taken (List.mem_iterate.2 ⟨0, pos, rfl⟩)
    rw [out] at linked
    refine h.take pos rfl rfl (by rw [out]; rfl) (fun d hd => ?_) ?_
    · simp only [Pc.held, List.mem_cons, List.not_mem_nil, or_false, not_or] at hd
      simp [fillData, Virtq.setDesc, Virtq.pop, Function.update_of_ne hd.1, Function.update_of_ne hd.2]
    · simp only [Pc.Linked] at linked
      simp [Pc.Linked, fillData, Virtq.setDesc, Virtq.pop, Function.update_of_ne ne]
      exact linked
  | @third p r d0 d1 pos out =>
    have linked := h.linked p
    have held := h.heldNodup p
    have taken := h.heldTaken p
    rw [out] at linked held taken
    have free : s.vq.freeHead ∈ s.vq.cells := List.mem_iterate.2 ⟨0, pos, rfl⟩
    have ne0 : d0 ≠ s.vq.freeHead := by rintro rfl; exact taken _ (by simp [Pc.held]) free
    have ne1 : d1 ≠ s.vq.freeHead := by rintro rfl; exact taken _ (by simp [Pc.held]) free
    have ne01 : d0 ≠ d1 := by rintro rfl; simp [Pc.held] at held
    obtain ⟨h0, n0, h1⟩ := linked
    refine h.take pos rfl rfl (by rw [out]; rfl) (fun d hd => ?_) ?_
    · simp only [Pc.held, List.mem_cons, List.not_mem_nil, or_false, not_or] at hd
      simp [fillStatus, Virtq.setDesc, Virtq.pop, Function.update_of_ne hd.2.1, Function.update_of_ne hd.2.2]
    · simp [Pc.Linked, fillStatus, Virtq.setDesc, Virtq.pop, Function.update_of_ne ne0,
        Function.update_of_ne ne1, Function.update_of_ne ne01]
      exact ⟨h0, n0, h1⟩
  | @publish p c out => exact h.move rfl rfl rfl (by rw [out]; rfl) fun l => by rw [out] at l; exact l
  | @finish p c vq out _ freed =>
    have before : ChainInv (s.vq.setInfo c.d0 fun i => { i with done := false }) s.pc :=
      h.quiet rfl rfl rfl (fun _ => rfl) fun _ l => l
    exact before.finish out freed
  | @sleep p c out _ => exact h.move rfl rfl rfl (by rw [out]; rfl) fun l => by rw [out] at l; exact l
  | kill p =>
    exact h.move rfl rfl rfl (Pc.held_rouse _) (Pc.linked_rouse _ _).2
  | intr => exact h
  | diskError => exact h
  | intrEntry _ _ _ =>
    exact h.quiet rfl rfl rfl (fun p => Pc.held_wake _ _) fun p => (Pc.linked_wake _ _ _).2
  | intrExit _ => exact h
  | fetch _ => exact h
  | complete _ => exact h.quiet rfl rfl rfl (fun _ => rfl) fun _ l => l

/-- Whoever is inside a critical section holds `disk.lk`. -/
def Exclusive (s : State) : Prop := ∀ p, (s.pc p).locked = true → s.lk = some (.proc p)

/-- Process `p` moves and takes the lock, or moves outside its critical sections. -/
theorem Exclusive.move {s : State} {p : ProcId} {x : Pc} {lk : Option Owner} (h : Exclusive s)
    (other : ∀ q, q ≠ p → (s.pc q).locked = true → s.lk = some (.proc q) → lk = some (.proc q))
    (own : x.locked = true → lk = some (.proc p)) :
    ∀ q, (Function.update s.pc p x q).locked = true → lk = some (.proc q) := by
  intro q hq
  by_cases e : q = p
  · subst e
    rw [Function.update_self] at hq
    exact own hq
  · rw [Function.update_of_ne e] at hq
    exact other q e hq (h q hq)

/-- One step keeps the lock discipline. -/
theorem Exclusive.step {s t : State} {a : Label} (h : Exclusive s) (st : Step s a t) : Exclusive t := by
  have holder : ∀ p q, (s.pc p).locked = true → s.lk = some (.proc q) → q = p := by
    intro p q lp lq
    have := (h p lp).symm.trans lq
    simpa using this.symm
  cases st with
  | call r out => exact h.move (fun _ _ _ hq => hq) nofun
  | enter free out => exact h.move (fun q _ _ hq => by simp [free] at hq) fun _ => rfl
  | wake free out => exact h.move (fun q _ _ hq => by simp [free] at hq) fun _ => rfl
  | exhausted => exact h
  | @first p r pos out => exact h.move (fun _ _ _ hq => hq) fun _ => h p (by rw [out]; rfl)
  | @second p r d0 pos out => exact h.move (fun _ _ _ hq => hq) fun _ => h p (by rw [out]; rfl)
  | @third p r d0 d1 pos out => exact h.move (fun _ _ _ hq => hq) fun _ => h p (by rw [out]; rfl)
  | @publish p c out => exact h.move (fun _ _ _ hq => hq) fun _ => h p (by rw [out]; rfl)
  | @finish p c vq out _ _ => exact h.move (fun q ne _ hq => absurd (holder p q (by rw [out]; rfl) hq) ne) nofun
  | @sleep p c out _ => exact h.move (fun q ne _ hq => absurd (holder p q (by rw [out]; rfl) hq) ne) nofun
  | kill p =>
    exact h.move (fun _ _ _ hq => hq) fun l => h p (by simpa using l)
  | intr free =>
    intro p hp
    have := h p hp
    simp [free] at this
  | diskError _ => exact h
  | intrEntry _ _ _ =>
    intro p hp
    exact h p (by simpa using hp)
  | intrExit owned =>
    intro p hp
    have := h p hp
    simp [owned] at this
  | fetch _ => exact h
  | complete _ => exact h

/-- Every state reached satisfies both invariants. -/
theorem reach_inv {s : State} (h : diskSystem.Reach s) : ChainInv s.vq s.pc ∧ Exclusive s := by
  refine h.invariant (I := fun s => ChainInv s.vq s.pc ∧ Exclusive s) ?_ ?_
  · rintro s rfl
    exact ⟨chainInv_boot, fun p hp => by cases hp⟩
  · rintro s a t ⟨chains, lock⟩ - st
    exact ⟨chains.step (State.step_inv st), lock.step (State.step_inv st)⟩

/-- With `disk.lk` free a process holds no descriptor or a whole chain. -/
theorem Exclusive.held_length {s : State} (h : Exclusive s) (free : s.lk = none) (p : ProcId) :
    (s.pc p).held.length = 0 ∨ (s.pc p).held.length = 3 := by
  have out : (s.pc p).locked = false := by
    by_contra locked
    have := h p (by simpa using locked)
    simp [free] at this
  cases e : s.pc p <;> simp [e, Pc.locked, Pc.held] at out ⊢

/-- While `disk.lk` is free every unreturned request accounts for three descriptors. -/
theorem ChainInv.unreturned {s : State} (inv : ChainInv s.vq s.pc) (lock : Exclusive s) (free : s.lk = none) :
    s.vq.nfree + 3 * s.inFlight.card = NQUEUE := by
  have total := sum_const_or_zero (fun p => (s.pc p).held.length) (lock.held_length free)
  have same : s.inFlight = Finset.univ.filter fun p => (s.pc p).held.length ≠ 0 := by
    simp [State.inFlight, List.length_eq_zero_iff]
  rw [same, ← total]
  exact inv.count

/-- **The free list and the chains in flight**, in every state reached: the list visits
`nfree` distinct descriptors, the descriptors of a request are distinct, linked, not on
the list and not in another request; and while `disk.lk` is free each request accounts
for three. -/
theorem free_list_and_chains {s : State} (h : diskSystem.Reach s) :
    s.vq.cells.length = s.vq.nfree ∧ s.vq.cells.Nodup ∧
    (∀ p, (s.pc p).held.Nodup ∧ ∀ d ∈ (s.pc p).held, d ∉ s.vq.cells) ∧
    (∀ p q, p ≠ q → (s.pc p).held.Disjoint (s.pc q).held) ∧
    (∀ p c, s.pc p = .ready c ∨ s.pc p = .test c ∨ s.pc p = .asleep c ∨ s.pc p = .awake c ∨ s.pc p = .dead c →
      List.iterate (fun d => (s.vq.desc d).next) c.d0 3 = (s.pc p).held) ∧
    (s.lk = none → s.vq.nfree + 3 * s.inFlight.card = NQUEUE) := by
  obtain ⟨inv, lock⟩ := reach_inv h
  refine ⟨List.length_iterate .., inv.nodup, fun p => ⟨inv.heldNodup p, inv.heldTaken p⟩, inv.disjoint, ?_, ?_⟩
  · intro p c at_p
    have linked := inv.linked p
    rcases at_p with e | e | e | e | e
    all_goals
      rw [e] at linked ⊢
      obtain ⟨-, n0, -, n1, -⟩ := linked
      simp [List.iterate, Pc.held, n0, n1]
  · exact inv.unreturned lock

/-- One call up to its first `sleep`. -/
def submit (p : ProcId) (r : Req) : List Label :=
  [.call p r, .acquire p, .alloc p, .alloc p, .alloc p, .publish p, .test p]

/-- The invariant after one request has been published and its caller sleeps: five
descriptors are free. -/
theorem free_list_and_chains_submitted : ∃ s, diskSystem.run State.boot (submit 0 ⟨1, 0x1000, .DREAD⟩) = some s ∧
    s.vq.cells.length = 5 ∧ s.vq.cells.Nodup ∧ s.vq.nfree + 3 * s.inFlight.card = NQUEUE := by
  obtain ⟨s, run, free, five⟩ : ∃ s, diskSystem.run State.boot (submit 0 ⟨1, 0x1000, .DREAD⟩) = some s ∧
      s.lk = none ∧ s.vq.cells.length = 5 := ⟨_, rfl, rfl, rfl⟩
  have inv := free_list_and_chains (System.Via.run (.init rfl) run)
  exact ⟨s, run, five, inv.2.1, inv.2.2.2.2.2 free⟩

end Aarch64Os.Driver
