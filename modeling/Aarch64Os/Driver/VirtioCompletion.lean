import Mathlib
import Aarch64Os.Base.RingBuffer
import Aarch64Os.Driver.VirtioChains

/-!
# Completions and the calls they belong to

Every call of `virtio_blk_op` that publishes a chain gets a number, and a record of the run
follows the number from the avail ring through the device and the used ring to the handler.
The code itself has descriptor heads only, which the next request takes again, and indices
of 16 bits.
-/

namespace Aarch64Os.Driver
set_option autoImplicit false
open Base
open Kernel (NPROC ProcId)

/-- Published chains by head and number: in the avail ring, in the device, in the used ring
and consumed by the handler; `mine p` is the chain that the last call of `p` has published. -/
structure Trace where
  calls : Nat
  mine : ProcId → Nat
  queue : List (Fin NQUEUE × Nat)
  pending : List (Fin NQUEUE × Nat)
  used : List (Fin NQUEUE × Nat)
  consumed : List (Fin NQUEUE × Nat)

/-- Nothing has been published. -/
def Trace.empty : Trace := { calls := 0, mine := fun _ => 0, queue := [], pending := [], used := [], consumed := [] }

/-- What a step adds to the record: a call publishes a chain, the device takes the oldest
one, completes one that it has, and the handler takes the oldest completion. -/
def Trace.next (h : Trace) (s : State) : Label → Trace
  | .publish p =>
    match s.pc p with
    | .ready c =>
      { h with calls := h.calls + 1, mine := Function.update h.mine p h.calls, queue := h.queue ++ [(c.d0, h.calls)] }
    | _ => h
  | .fetch => { h with queue := h.queue.tail, pending := h.queue.head?.toList ++ h.pending }
  | .complete d0 _ =>
    { h with
      pending := h.pending.eraseP fun x => x.1 = d0
      used := h.used ++ (h.pending.find? fun x => x.1 = d0).toList }
  | .intrEntry =>
    if (s.vq.info (s.vq.used.ring (slot s.vq.lastUsedIdx))).status = 0 then
      { h with used := h.used.tail, consumed := h.used.head?.toList ++ h.consumed }
    else h
  | _ => h

/-- Block I/O with its record. -/
def tracedSystem : System (State × Trace) Label where
  init x := x = (State.boot, Trace.empty)
  step x l := (x.1.step l).map fun t => (t, x.2.next x.1 l)

/-- No process is killed. -/
def NoKill (_ : State × Trace) (l : Label) : Prop := ∀ p, l ≠ .kill p

/-- The chain of a call that has published it and has not returned. -/
def Pc.flying : Pc → Option Chain
  | .test c | .asleep c | .awake c => some c
  | _ => none

/-- Published, and not consumed by the handler. -/
def Trace.outstanding (h : Trace) : List (Fin NQUEUE × Nat) := h.queue ++ h.pending ++ h.used

/-- The rings and the device hold what the record says. -/
structure Rings (vq : Virtq) (dev : Device) (h : Trace) : Prop where
  avail : vq.avail.idx = dev.lastAvail + BitVec.ofNat 16 h.queue.length
  availRing : Window vq.avail.ring dev.lastAvail (h.queue.map Prod.fst)
  pending : dev.pending = h.pending.map Prod.fst
  used : vq.used.idx = vq.lastUsedIdx + BitVec.ofNat 16 h.used.length
  usedRing : Window vq.used.ring vq.lastUsedIdx (h.used.map Prod.fst)

/-- Every number is in one place; what is outstanding belongs to a call that waits for it; a
call that waits for nothing more has had its own chain consumed; and `done` is set for
waiting calls only. -/
structure Owned (info : Fin NQUEUE → Info) (pc : ProcId → Pc) (h : Trace) : Prop where
  all : ((h.outstanding ++ h.consumed).map Prod.snd).Perm (List.range h.calls)
  waits : ∀ x ∈ h.outstanding, ∃ p c, (pc p).flying = some c ∧ c.d0 = x.1 ∧ h.mine p = x.2 ∧ (info x.1).done = false
  mine : ∀ p c, (pc p).flying = some c →
    (info c.d0).done = false ∧ (c.d0, h.mine p) ∈ h.outstanding ∨
      (info c.d0).done = true ∧ (c.d0, h.mine p) ∈ h.consumed
  done : ∀ d, (info d).done = true → ∃ p c, (pc p).flying = some c ∧ c.d0 = d

@[simp] theorem Pc.flying_wake (pc : Pc) (chan : Option BufPtr) : (pc.wake chan).flying = pc.flying := by
  cases pc <;> simp only [Pc.wake]
  split <;> rfl

/-- A call that waits holds its three descriptors. -/
theorem Pc.held_of_flying {pc : Pc} {c : Chain} (h : pc.flying = some c) : pc.held = [c.d0, c.d1, c.d2] := by
  cases pc <;> simp only [Pc.flying, reduceCtorEq, Option.some.injEq] at h
  all_goals
    subst h
    rfl

/-- Moving a process leaves the waiting calls as they are when its own is as before. -/
theorem flying_move {pc : ProcId → Pc} {p : ProcId} {x : Pc} (same : x.flying = (pc p).flying) (q : ProcId) :
    (Function.update pc p x q).flying = (pc q).flying := by
  by_cases e : q = p
  · subst e
    rw [Function.update_self]
    exact same
  · rw [Function.update_of_ne e]

/-- Two waiting calls whose chains have the same head are one call. -/
theorem ChainInv.flying_inj {vq : Virtq} {pc : ProcId → Pc} (inv : ChainInv vq pc) {p q : ProcId} {c c' : Chain}
    (hp : (pc p).flying = some c) (hq : (pc q).flying = some c') (same : c.d0 = c'.d0) : p = q := by
  by_contra ne
  have apart := inv.disjoint p q ne
  rw [Pc.held_of_flying hp, Pc.held_of_flying hq] at apart
  exact apart List.mem_cons_self (same ▸ List.mem_cons_self)

/-- At most two calls wait. -/
theorem ChainInv.flying_le {vq : Virtq} {pc : ProcId → Pc} (inv : ChainInv vq pc) :
    (Finset.univ.filter fun p => (pc p).flying.isSome).card ≤ 2 := by
  have three : ∀ p ∈ Finset.univ.filter (fun p => (pc p).flying.isSome), 3 ≤ (pc p).held.length := by
    intro p hp
    obtain ⟨c, hc⟩ := Option.isSome_iff_exists.1 (Finset.mem_filter.1 hp).2
    rw [Pc.held_of_flying hc]
    exact le_refl 3
  have some_of_all := Finset.sum_le_sum_of_subset (f := fun p => (pc p).held.length)
    (Finset.filter_subset (fun p => (pc p).flying.isSome) Finset.univ)
  have total := Finset.card_nsmul_le_sum _ _ _ three
  have count := inv.count
  simp only [smul_eq_mul, NQUEUE] at total count
  omega

namespace Owned
variable {info : Fin NQUEUE → Info} {vq : Virtq} {pc pc' : ProcId → Pc} {h h' : Trace}

/-- No number is outstanding twice. -/
theorem nodup (own : Owned info pc h) : (h.outstanding.map Prod.snd).Nodup := by
  have all := own.all.nodup_iff.2 List.nodup_range
  rw [List.map_append] at all
  exact all.of_append_left

/-- Outstanding chains have different heads. -/
theorem heads_nodup (own : Owned info pc h) (inv : ChainInv vq pc) : (h.outstanding.map Prod.fst).Nodup := by
  have distinct : h.outstanding.Nodup := own.nodup.of_map _
  refine distinct.map_on ?_
  intro x hx y hy same
  obtain ⟨p, c, hp, head, number, -⟩ := own.waits x hx
  obtain ⟨q, c', hq, head', number', -⟩ := own.waits y hy
  have eq : p = q := inv.flying_inj hp hq (by rw [head, head', same])
  subst eq
  exact Prod.ext same (number.symm.trans number')

/-- At most two chains are outstanding, so neither ring is ever overrun. -/
theorem outstanding_le (own : Owned info pc h) (inv : ChainInv vq pc) : h.outstanding.length ≤ 2 := by
  have numbers : (h.outstanding.map Prod.snd).toFinset ⊆
      (Finset.univ.filter fun p => (pc p).flying.isSome).image h.mine := by
    intro n hn
    obtain ⟨x, hx, rfl⟩ := List.mem_map.1 (List.mem_toFinset.1 hn)
    obtain ⟨p, c, hp, -, number, -⟩ := own.waits x hx
    exact Finset.mem_image.2 ⟨p, by simp [hp], number⟩
  calc h.outstanding.length = (h.outstanding.map Prod.snd).toFinset.card := by
        rw [List.toFinset_card_of_nodup own.nodup, List.length_map]
    _ ≤ _ := Finset.card_le_card numbers
    _ ≤ _ := Finset.card_image_le
    _ ≤ 2 := inv.flying_le

/-- Moving chains between the rings and the device changes nothing here. -/
theorem perm (own : Owned info pc h) (order : h'.outstanding.Perm h.outstanding) (consumed : h'.consumed = h.consumed)
    (calls : h'.calls = h.calls) (mine : h'.mine = h.mine) : Owned info pc h' := by
  constructor
  · rw [consumed, calls]
    exact ((order.append_right _).map _).trans own.all
  · intro x hx
    rw [mine]
    exact own.waits x (order.mem_iff.1 hx)
  · intro p c hc
    rw [mine, consumed, order.mem_iff]
    exact own.mine p c hc
  · exact own.done

/-- Only `done` and the chains of waiting calls matter. -/
theorem quiet {info' : Fin NQUEUE → Info} (own : Owned info pc h) (done : ∀ d, (info' d).done = (info d).done)
    (flying : ∀ p, (pc' p).flying = (pc p).flying) : Owned info' pc' h := by
  constructor
  · exact own.all
  · simpa only [flying, done] using own.waits
  · simpa only [flying, done] using own.mine
  · simpa only [flying, done] using own.done

/-- **Publishing.** The call gets a new number; its chain is outstanding and not done. -/
theorem publish {p : ProcId} {c : Chain} {info' : Fin NQUEUE → Info} (own : Owned info pc h) (inv : ChainInv vq pc)
    (at_p : pc p = .ready c) (done : ∀ d, (info' d).done = (info d).done) (calls : h'.calls = h.calls + 1)
    (mine : h'.mine = Function.update h.mine p h.calls) (consumed : h'.consumed = h.consumed)
    (outstanding : h'.outstanding.Perm ((c.d0, h.calls) :: h.outstanding)) :
    Owned info' (Function.update pc p (.test c)) h' := by
  have held : (pc p).held = [c.d0, c.d1, c.d2] := by rw [at_p]; rfl
  have idle : (pc p).flying = none := by rw [at_p]; rfl
  have other : ∀ q c', (pc q).flying = some c' → q ≠ p := by
    rintro q c' hq rfl
    simp [idle] at hq
  have unused : ∀ q c', (pc q).flying = some c' → c'.d0 ≠ c.d0 := by
    intro q c' hq same
    have apart := inv.disjoint q p (other q c' hq)
    rw [Pc.held_of_flying hq, held] at apart
    exact apart List.mem_cons_self (same ▸ List.mem_cons_self)
  have notDone : (info c.d0).done = false := by
    by_contra set
    obtain ⟨q, c', hq, head⟩ := own.done c.d0 (by simpa using set)
    exact unused q c' hq head
  constructor
  · rw [consumed, calls, List.range_succ]
    have moved : ((h'.outstanding ++ h.consumed).map Prod.snd).Perm (h.calls :: (h.outstanding ++ h.consumed).map Prod.snd) :=
      (outstanding.append_right _).map _
    exact moved.trans ((own.all.cons _).trans (List.perm_append_singleton _ _).symm)
  · intro x hx
    rcases List.mem_cons.1 (outstanding.mem_iff.1 hx) with rfl | old
    · refine ⟨p, c, ?_, rfl, ?_, (done _).trans notDone⟩
      · rw [Function.update_self]
        rfl
      · rw [mine, Function.update_self]
    · obtain ⟨q, c', hq, head, number, wait⟩ := own.waits x old
      have ne := other q c' hq
      refine ⟨q, c', ?_, head, ?_, (done _).trans wait⟩
      · rw [Function.update_of_ne ne]
        exact hq
      · rw [mine, Function.update_of_ne ne]
        exact number
  · intro q c' hq
    rw [done, mine, consumed, outstanding.mem_iff]
    by_cases e : q = p
    · subst e
      rw [Function.update_self] at hq
      obtain rfl : c = c' := by simpa [Pc.flying] using hq
      rw [Function.update_self]
      exact .inl ⟨notDone, List.mem_cons_self⟩
    · rw [Function.update_of_ne e] at hq
      rw [Function.update_of_ne e]
      exact (own.mine q c' hq).imp_left fun ⟨wait, mem⟩ => ⟨wait, List.mem_cons_of_mem _ mem⟩
  · intro d hd
    rw [done] at hd
    obtain ⟨q, c', hq, head⟩ := own.done d hd
    refine ⟨q, c', ?_, head⟩
    rw [Function.update_of_ne (other q c' hq)]
    exact hq

/-- **Returning.** The call has found its `done` set and takes it back. -/
theorem finish {p : ProcId} {c : Chain} {info' : Fin NQUEUE → Info} (own : Owned info pc h) (inv : ChainInv vq pc)
    (at_p : pc p = .test c) (set : (info c.d0).done = true) (cleared : (info' c.d0).done = false)
    (others : ∀ d, d ≠ c.d0 → (info' d).done = (info d).done) : Owned info' (Function.update pc p .out) h := by
  have waiting : (pc p).flying = some c := by rw [at_p]; rfl
  have other : ∀ q c', (pc q).flying = some c' → c'.d0 ≠ c.d0 → q ≠ p := by
    rintro q c' hq ne rfl
    rw [waiting] at hq
    cases hq
    exact ne rfl
  have still : ∀ q, (Function.update pc p .out q).flying ≠ none → q ≠ p := by
    rintro q hq rfl
    rw [Function.update_self] at hq
    exact hq rfl
  constructor
  · exact own.all
  · intro x hx
    obtain ⟨q, c', hq, head, number, wait⟩ := own.waits x hx
    have ne : x.1 ≠ c.d0 := by
      intro same
      rw [same, set] at wait
      cases wait
    refine ⟨q, c', ?_, head, number, (others _ ne).trans wait⟩
    rw [Function.update_of_ne (other q c' hq (by rwa [head]))]
    exact hq
  · intro q c' hq
    have e : q ≠ p := still q (by rw [hq]; nofun)
    rw [Function.update_of_ne e] at hq
    rw [others c'.d0 fun same => e (inv.flying_inj hq waiting same)]
    exact own.mine q c' hq
  · intro d hd
    have ne : d ≠ c.d0 := by
      rintro rfl
      rw [cleared] at hd
      cases hd
    rw [others d ne] at hd
    obtain ⟨q, c', hq, head⟩ := own.done d hd
    refine ⟨q, c', ?_, head⟩
    rw [Function.update_of_ne (other q c' hq (by rwa [head]))]
    exact hq

/-- **Consuming.** The handler sets `done` for the head of an outstanding chain. -/
theorem consume {x : Fin NQUEUE × Nat} {info' : Fin NQUEUE → Info} (own : Owned info pc h) (inv : ChainInv vq pc)
    (before : h.outstanding.Perm (x :: h'.outstanding)) (consumed : h'.consumed = x :: h.consumed)
    (calls : h'.calls = h.calls) (mine : h'.mine = h.mine) (set : (info' x.1).done = true)
    (others : ∀ d, d ≠ x.1 → (info' d).done = (info d).done) : Owned info' pc h' := by
  obtain ⟨p, c, hp, head, number, -⟩ := own.waits x (before.mem_iff.2 List.mem_cons_self)
  have apart : ∀ y ∈ h'.outstanding, y.1 ≠ x.1 := by
    have heads := (before.map Prod.fst).nodup_iff.1 (own.heads_nodup inv)
    rw [List.map_cons, List.nodup_cons] at heads
    rintro y hy same
    exact heads.1 (same ▸ List.mem_map_of_mem hy)
  constructor
  · rw [consumed, calls]
    have moved : (h'.outstanding ++ x :: h.consumed).Perm (h.outstanding ++ h.consumed) :=
      List.perm_middle.trans (before.symm.append_right _)
    exact (moved.map _).trans own.all
  · intro y hy
    rw [mine, others _ (apart y hy)]
    exact own.waits y (before.mem_iff.2 (List.mem_cons_of_mem _ hy))
  · intro q c' hq
    rw [mine, consumed]
    by_cases same : c'.d0 = x.1
    · obtain rfl : p = q := inv.flying_inj hp hq (by rw [head, same])
      right
      rw [same, number]
      exact ⟨set, List.mem_cons_self⟩
    · rw [others _ same]
      rcases own.mine q c' hq with ⟨wait, mem⟩ | ⟨done, mem⟩
      · rcases List.mem_cons.1 (before.mem_iff.1 mem) with eq | rest
        · exact absurd (congrArg Prod.fst eq) same
        · exact .inl ⟨wait, rest⟩
      · exact .inr ⟨done, List.mem_cons_of_mem _ mem⟩
  · intro d hd
    by_cases same : d = x.1
    · exact ⟨p, c, hp, head.trans same.symm⟩
    · rw [others d same] at hd
      exact own.done d hd

end Owned

/-- Nobody has a signal and nobody has left through `exitproc`. -/
def Unkilled (s : State) : Prop := ∀ p, s.sig p = false ∧ ∀ c, s.pc p ≠ .dead c

theorem Unkilled.move {s : State} (h : Unkilled s) {p : ProcId} {x : Pc} (alive : ∀ c, x ≠ .dead c) (q : ProcId) :
    s.sig q = false ∧ ∀ c, Function.update s.pc p x q ≠ .dead c := by
  by_cases e : q = p
  · subst e
    rw [Function.update_self]
    exact ⟨(h q).1, alive⟩
  · rw [Function.update_of_ne e]
    exact h q

/-- One step without `kill`. -/
theorem Unkilled.step {s t : State} {a : Label} (h : Unkilled s) (calm : ∀ p, a ≠ .kill p) (st : Step s a t) :
    Unkilled t := by
  cases st with
  | call r out => exact h.move (by intro _ never; cases never)
  | enter free out => exact h.move (by intro _ never; cases never)
  | @wake p c free out =>
    intro q
    have unsent := (h p).1
    have moved := h.move (p := p) (x := if s.sig p then .dead c else .test c) (by rw [unsent]; intro _ never; cases never) q
    refine ⟨?_, moved.2⟩
    by_cases e : q = p
    · subst e
      exact Function.update_self ..
    · exact (Function.update_of_ne e ..).trans moved.1
  | exhausted => exact h
  | first pos out => exact h.move (by intro _ never; cases never)
  | second pos out => exact h.move (by intro _ never; cases never)
  | third pos out => exact h.move (by intro _ never; cases never)
  | publish out => exact h.move (by intro _ never; cases never)
  | finish out _ _ => exact h.move (by intro _ never; cases never)
  | sleep out _ => exact h.move (by intro _ never; cases never)
  | kill p => exact absurd rfl (calm p)
  | intr => exact h
  | diskError => exact h
  | intrEntry _ _ _ =>
    intro q
    refine ⟨(h q).1, fun c woken => ?_⟩
    have alive := (h q).2 c
    revert woken
    cases e : s.pc q <;> simp_all [Pc.wake]
    split <;> simp
  | intrExit _ => exact h
  | fetch _ => exact h
  | complete _ => exact h

/-- The handler panics only on a status other than 0. -/
theorem State.status_of_error {s : State} {m : String} (h : s.step .intrEntry = some { s with panicked := some m }) :
    (s.vq.info (s.vq.used.ring (slot s.vq.lastUsedIdx))).status ≠ 0 := by
  intro good
  unfold State.step at h
  split at h
  · cases h
  have running : s.panicked = none := by simpa using ‹¬ s.panicked.isSome = true›
  dsimp only at h
  split at h
  · have after := congrArg State.panicked (Option.some.inj h)
    simp [State.intrEntry, Driver.intrEntry, good, running] at after
  · cases h

theorem slot_dvd : NQUEUE ∣ 2 ^ 16 := by decide

/-- Erasing a key takes the first entry with this key out. -/
theorem exists_of_mem_keys {α β : Type} [DecidableEq α] {l : List (α × β)} {a : α} (mem : a ∈ l.map Prod.fst) :
    ∃ x front rest, x.1 = a ∧ l = front ++ x :: rest ∧ (l.find? fun y => y.1 = a) = some x ∧
      (l.eraseP fun y => y.1 = a) = front ++ rest ∧ (l.map Prod.fst).erase a = (front ++ rest).map Prod.fst := by
  obtain ⟨y, hy, key⟩ := List.mem_map.1 mem
  obtain ⟨x, front, rest, before, found, split, erased⟩ :=
    List.exists_of_eraseP (p := fun y : α × β => decide (y.1 = a)) hy (by simpa using key)
  have found : x.1 = a := by simpa using found
  have before : ∀ b ∈ front, b.1 ≠ a := by simpa using before
  refine ⟨x, front, rest, found, split, ?_, erased, ?_⟩
  · rw [List.find?_eq_some_iff_append]
    exact ⟨by simpa using found, front, rest, split, by simpa using before⟩
  · have absent : a ∉ front.map Prod.fst := by
      intro hmem
      obtain ⟨b, hb, eq⟩ := List.mem_map.1 hmem
      exact before b hb eq
    rw [split, List.map_append, List.map_cons, List.erase_append_right _ absent, found, List.erase_cons_head,
      List.map_append]

namespace Rings
variable {vq vq' : Virtq} {dev : Device} {h : Trace} {x : Fin NQUEUE × Nat} {xs : List (Fin NQUEUE × Nat)}

/-- The avail ring takes one more head. -/
theorem publish {n : Nat} {mine : ProcId → Nat} (rings : Rings vq dev h) (room : h.queue.length < NQUEUE)
    (avail : vq'.avail = vq.avail.push x.1) (used : vq'.used = vq.used) (last : vq'.lastUsedIdx = vq.lastUsedIdx) :
    Rings vq' dev { h with calls := n, mine := mine, queue := h.queue ++ [x] } := by
  constructor
  · rw [avail, List.length_append, List.length_singleton]
    simp only [Ring.push]
    rw [rings.avail]
    exact counter_push ..
  · rw [avail, List.map_append]
    simp only [Ring.push]
    rw [rings.avail, ← List.length_map Prod.fst]
    exact rings.availRing.push slot_dvd (by rwa [List.length_map])
  · exact rings.pending
  · rw [used, last]
    exact rings.used
  · rw [used, last]
    exact rings.usedRing

/-- What the device finds at its index is the oldest published chain. -/
theorem fetch (rings : Rings vq dev h) (oldest : h.queue = x :: xs) :
    Rings vq { lastAvail := dev.lastAvail + 1, pending := vq.avail.ring (slot dev.lastAvail) :: dev.pending }
      { h with queue := xs, pending := x :: h.pending } := by
  have avail := rings.avail
  have window := rings.availRing
  rw [oldest] at avail window
  constructor
  · exact avail.trans (counter_succ ..)
  · exact window.tail
  · have head : vq.avail.ring (slot dev.lastAvail) = x.1 := window.head
    rw [head, rings.pending]
    rfl
  · exact rings.used
  · exact rings.usedRing

/-- A completed chain moves from the device to the end of the used ring. -/
theorem complete (rings : Rings vq dev h) (room : h.used.length < NQUEUE) {pending : List (Fin NQUEUE × Nat)}
    (avail : vq'.avail = vq.avail) (used : vq'.used = vq.used.push x.1) (last : vq'.lastUsedIdx = vq.lastUsedIdx)
    (erased : dev.pending.erase x.1 = pending.map Prod.fst) :
    Rings vq' { dev with pending := dev.pending.erase x.1 } { h with pending := pending, used := h.used ++ [x] } := by
  constructor
  · rw [avail]
    exact rings.avail
  · rw [avail]
    exact rings.availRing
  · exact erased
  · rw [used, last, List.length_append, List.length_singleton]
    simp only [Ring.push]
    rw [rings.used]
    exact counter_push ..
  · rw [used, last, List.map_append]
    simp only [Ring.push]
    rw [rings.used, ← List.length_map Prod.fst]
    exact rings.usedRing.push slot_dvd (by rwa [List.length_map])

/-- The handler goes on to the next completion. -/
theorem consume (rings : Rings vq dev h) (oldest : h.used = x :: xs) (avail : vq'.avail = vq.avail)
    (used : vq'.used = vq.used) (last : vq'.lastUsedIdx = vq.lastUsedIdx + 1) :
    Rings vq' dev { h with used := xs, consumed := x :: h.consumed } := by
  have counter := rings.used
  have window := rings.usedRing
  rw [oldest] at counter window
  constructor
  · rw [avail]
    exact rings.avail
  · rw [avail]
    exact rings.availRing
  · exact rings.pending
  · rw [used, last]
    exact counter.trans (counter_succ ..)
  · rw [used, last]
    exact window.tail

/-- The handler's index and the ring's differ when a completion waits. -/
theorem used_ne_nil (rings : Rings vq dev h) (more : vq.lastUsedIdx ≠ vq.used.idx) : h.used ≠ [] := by
  intro empty
  have counter := rings.used
  rw [empty] at counter
  simp at counter
  exact more counter.symm

/-- The entry the handler reads is the oldest completion. -/
theorem used_head (rings : Rings vq dev h) (oldest : h.used = x :: xs) : vq.used.ring (slot vq.lastUsedIdx) = x.1 := by
  have window := rings.usedRing
  rw [oldest] at window
  exact window.head

theorem queue_ne_nil (rings : Rings vq dev h) (more : dev.lastAvail ≠ vq.avail.idx) : h.queue ≠ [] := by
  intro empty
  have counter := rings.avail
  rw [empty] at counter
  simp at counter
  exact more counter.symm

/-- No completion waits when the indices are the same. -/
theorem used_nil (rings : Rings vq dev h) (room : h.used.length < NQUEUE) (same : vq.lastUsedIdx = vq.used.idx) :
    h.used = [] := by
  have counter := rings.used
  rw [← same] at counter
  have zero : BitVec.ofNat 16 h.used.length = 0 := by simpa using counter.symm
  have length := congrArg BitVec.toNat zero
  simp only [BitVec.toNat_ofNat, NQUEUE] at length room
  apply List.eq_nil_of_length_eq_zero
  simp at length
  omega

end Rings

/-- What holds of a state and its record. -/
structure Tracked (s : State) (h : Trace) : Prop where
  chains : ChainInv s.vq s.pc
  unkilled : Unkilled s
  rings : Rings s.vq s.dev h
  owned : Owned s.vq.info s.pc h

theorem tracked_boot : Tracked State.boot Trace.empty := by
  constructor
  · exact chainInv_boot
  · exact fun p => ⟨rfl, nofun⟩
  · exact ⟨rfl, .nil, rfl, rfl, .nil⟩
  · exact ⟨.refl _, nofun, nofun, nofun⟩

namespace Tracked
variable {s t : State} {h : Trace}

theorem outstanding_le (inv : Tracked s h) : h.queue.length + h.pending.length + h.used.length ≤ 2 := by
  have room := inv.owned.outstanding_le inv.chains
  simpa only [Trace.outstanding, List.length_append] using room

theorem queue_room (inv : Tracked s h) : h.queue.length < NQUEUE := by
  have room := inv.outstanding_le
  simp only [NQUEUE]
  omega

theorem used_room (inv : Tracked s h) : h.used.length < NQUEUE := by
  have room := inv.outstanding_le
  simp only [NQUEUE]
  omega

/-- The two parts that every step changes in its own way. -/
theorem step_parts {a : Label} (inv : Tracked s h) (calm : ∀ p, a ≠ .kill p) (run : s.step a = some t) :
    Rings t.vq t.dev (h.next s a) ∧ Owned t.vq.info t.pc (h.next s a) := by
  have ⟨chains, unkilled, rings, owned⟩ := inv
  cases State.step_inv run with
  | @call p r out =>
    exact ⟨rings, owned.quiet (fun _ => rfl) (flying_move (by rw [out]; rfl))⟩
  | @enter p r free out =>
    exact ⟨rings, owned.quiet (fun _ => rfl) (flying_move (by rw [out]; rfl))⟩
  | @wake p c free out =>
    refine ⟨rings, owned.quiet (fun _ => rfl) (flying_move ?_)⟩
    rw [(unkilled p).1, out]
    rfl
  | exhausted => exact ⟨rings, owned⟩
  | @first p r pos out =>
    exact ⟨⟨rings.avail, rings.availRing, rings.pending, rings.used, rings.usedRing⟩,
      owned.quiet (fun _ => rfl) (flying_move (by rw [out]; rfl))⟩
  | @second p r d0 pos out =>
    exact ⟨⟨rings.avail, rings.availRing, rings.pending, rings.used, rings.usedRing⟩,
      owned.quiet (fun _ => rfl) (flying_move (by rw [out]; rfl))⟩
  | @third p r d0 d1 pos out =>
    exact ⟨⟨rings.avail, rings.availRing, rings.pending, rings.used, rings.usedRing⟩,
      owned.quiet (fun _ => rfl) (flying_move (by rw [out]; rfl))⟩
  | @publish p c out =>
    simp only [Trace.next, out]
    refine ⟨rings.publish inv.queue_room rfl rfl rfl, owned.publish chains out ?_ rfl rfl rfl ?_⟩
    · intro d
      simp only [Driver.publish, Virtq.setInfo, Function.update_apply]
      split <;> simp [*]
    · simp only [Trace.outstanding, List.append_assoc]
      exact List.perm_middle
  | @finish p c vq out set freed =>
    obtain ⟨r, -, rfl⟩ := Option.map_eq_some_iff.1 freed
    refine ⟨⟨rings.avail, rings.availRing, rings.pending, rings.used, rings.usedRing⟩, owned.finish chains out set ?_ ?_⟩
    · simp [Virtq.setDesc, Virtq.setInfo]
    · intro d ne
      simp [Virtq.setDesc, Virtq.setInfo, Function.update_of_ne ne]
  | @sleep p c out _ =>
    exact ⟨rings, owned.quiet (fun _ => rfl) (flying_move (by rw [out]; rfl))⟩
  | kill p => exact absurd rfl (calm p)
  | intr => exact ⟨rings, owned⟩
  | diskError =>
    have bad := State.status_of_error run
    simp only [Trace.next, if_neg bad]
    exact ⟨rings, owned⟩
  | intrEntry _ more good =>
    obtain ⟨x, xs, oldest⟩ := List.exists_cons_of_ne_nil (rings.used_ne_nil more)
    have head := rings.used_head oldest
    simp only [Trace.next, if_pos good, oldest, List.tail_cons, List.head?_cons, Option.toList_some, List.singleton_append]
    refine ⟨rings.consume oldest rfl rfl rfl, ?_⟩
    refine Owned.quiet (owned.consume (x := x) chains ?_ rfl rfl rfl ?_ ?_) (fun _ => rfl) fun p => Pc.flying_wake ..
    · simp only [Trace.outstanding, oldest]
      exact List.perm_middle
    · simp [Virtq.setInfo, head]
    · intro d ne
      simp [Virtq.setInfo, head, Function.update_of_ne ne]
  | intrExit _ => exact ⟨rings, owned⟩
  | fetch more =>
    obtain ⟨x, xs, oldest⟩ := List.exists_cons_of_ne_nil (rings.queue_ne_nil more)
    simp only [Trace.next, oldest, List.tail_cons, List.head?_cons, Option.toList_some, List.singleton_append]
    refine ⟨rings.fetch oldest, owned.perm ?_ rfl rfl rfl⟩
    simp only [Trace.outstanding, oldest]
    exact List.perm_middle.append_right _
  | @complete d0 status mem =>
    rw [rings.pending] at mem
    obtain ⟨x, front, rest, rfl, split, found, left, erased⟩ := exists_of_mem_keys mem
    simp only [Trace.next, found, left, Option.toList_some]
    refine ⟨rings.complete inv.used_room rfl rfl rfl (by rw [rings.pending]; exact erased), ?_⟩
    have moved : Owned s.vq.info s.pc { h with pending := front ++ rest, used := h.used ++ [x] } := by
      refine owned.perm ?_ rfl rfl rfl
      simp only [Trace.outstanding, split]
      rw [List.perm_iff_count]
      intro y
      simp only [List.count_append, List.count_cons, List.count_nil]
      omega
    refine moved.quiet (fun d => ?_) fun _ => rfl
    simp only [State.complete, Virtq.setInfo, Function.update_apply]
    split <;> simp [*]

/-- One step keeps the record true. -/
theorem step {a : Label} (inv : Tracked s h) (calm : ∀ p, a ≠ .kill p) (run : s.step a = some t) :
    Tracked t (h.next s a) := by
  have st := State.step_inv run
  obtain ⟨rings, owned⟩ := inv.step_parts calm run
  exact ⟨inv.chains.step st, inv.unkilled.step calm st, rings, owned⟩

end Tracked

/-- The record is true in every state reached. -/
theorem tracked {x : State × Trace} (h : tracedSystem.Via NoKill x) : Tracked x.1 x.2 := by
  apply h.invariant (I := fun x => Tracked x.1 x.2)
  · rintro x rfl
    exact tracked_boot
  · intro x a y inv calm step
    obtain ⟨t, run, rfl⟩ := Option.map_eq_some_iff.1 step
    exact inv.step calm run

theorem Pc.out_of_rouse {pc : Pc} (h : pc.rouse = .out) : pc = .out := by
  cases pc <;> simp_all [Pc.rouse]

theorem Pc.out_of_wake {pc : Pc} {chan : Option BufPtr} (h : pc.wake chan = .out) : pc = .out := by
  cases pc <;> simp only [Pc.wake, reduceCtorEq] at h ⊢
  split at h <;> cases h

/-- A call returns from its loop only, with `done` set. -/
theorem Step.returns {s t : State} {a : Label} {p : ProcId} (st : Step s a t) (before : s.pc p ≠ .out)
    (after : t.pc p = .out) : ∃ c, s.pc p = .test c ∧ (s.vq.info c.d0).done = true := by
  have moved : ∀ {q : ProcId} {x : Pc}, Function.update s.pc q x p = .out → x ≠ .out → False := by
    intro q x out ne
    by_cases e : p = q
    · subst e
      rw [Function.update_self] at out
      exact ne out
    · rw [Function.update_of_ne e] at out
      exact before out
  cases st with
  | call r out => exact (moved after nofun).elim
  | enter free out => exact (moved after nofun).elim
  | @wake q c free out =>
    refine (moved after ?_).elim
    split <;> nofun
  | exhausted => exact absurd after before
  | first pos out => exact (moved after nofun).elim
  | second pos out => exact (moved after nofun).elim
  | third pos out => exact (moved after nofun).elim
  | publish out => exact (moved after nofun).elim
  | @finish q c vq out set freed =>
    by_cases e : p = q
    · subst e
      exact ⟨c, out, set⟩
    · have unmoved : Function.update s.pc q .out p = .out := after
      rw [Function.update_of_ne e] at unmoved
      exact absurd unmoved before
  | sleep out _ => exact (moved after nofun).elim
  | kill q =>
    by_cases e : p = q
    · subst e
      have roused : (s.pc p).rouse = .out := by simpa [State.go] using after
      exact absurd (Pc.out_of_rouse roused) before
    · have unmoved : Function.update s.pc q (s.pc q).rouse p = .out := after
      rw [Function.update_of_ne e] at unmoved
      exact absurd unmoved before
  | intr => exact absurd after before
  | diskError => exact absurd after before
  | intrEntry _ _ _ => exact absurd (Pc.out_of_wake after) before
  | intrExit _ => exact absurd after before
  | fetch _ => exact absurd after before
  | complete _ => exact absurd after before

/-- **Completions reach the calls they belong to.** In every run without `kill`: a call that
returns has had the chain it published completed by the device and consumed by the handler;
every chain published is in one place, once; the handler reads the oldest completion and
finds no more exactly when none waits; and `done` is set only for the chain of a call that
has not returned. -/
theorem completions_reach_their_calls {x : State × Trace} (h : tracedSystem.Via NoKill x) :
    (∀ p a t, x.1.step a = some t → x.1.pc p ≠ .out → t.pc p = .out →
      ∃ c, x.1.pc p = .test c ∧ (c.d0, x.2.mine p) ∈ x.2.consumed) ∧
    ((x.2.queue ++ x.2.pending ++ x.2.used ++ x.2.consumed).map Prod.snd).Perm (List.range x.2.calls) ∧
    (x.1.vq.lastUsedIdx = x.1.vq.used.idx ↔ x.2.used = []) ∧
    (∀ y ys, x.2.used = y :: ys → x.1.vq.used.ring (slot x.1.vq.lastUsedIdx) = y.1) ∧
    ∀ d, (x.1.vq.info d).done = true →
      ∃ p c, (x.1.pc p).flying = some c ∧ c.d0 = d ∧ (d, x.2.mine p) ∈ x.2.consumed := by
  have inv := tracked h
  refine ⟨?_, inv.owned.all, ⟨inv.rings.used_nil inv.used_room, ?_⟩, fun y ys => inv.rings.used_head, ?_⟩
  · intro p a t step before after
    obtain ⟨c, at_p, set⟩ := (State.step_inv step).returns before after
    have waiting : (x.1.pc p).flying = some c := by rw [at_p]; rfl
    rcases inv.owned.mine p c waiting with ⟨unset, -⟩ | ⟨-, consumed⟩
    · rw [set] at unset
      cases unset
    · exact ⟨c, at_p, consumed⟩
  · intro empty
    by_contra more
    exact inv.rings.used_ne_nil more empty
  · intro d set
    obtain ⟨p, c, waiting, rfl⟩ := inv.owned.done d set
    rcases inv.owned.mine p c waiting with ⟨unset, -⟩ | ⟨-, consumed⟩
    · rw [set] at unset
      cases unset
    · exact ⟨p, c, waiting, rfl, consumed⟩

/-- One call from its first `sleep` to the test that it passes: the device takes the chain and
completes it, the interrupt handles the completion, and the sleeper takes the lock again. -/
def serve (p : ProcId) (d0 : Fin NQUEUE) : List Label :=
  [.fetch, .complete d0 0, .intr, .intrEntry, .intrExit, .acquire p]

/-- One request from its submission to its return. -/
theorem completions_reach_their_calls_once : ∃ x t,
    tracedSystem.run (State.boot, Trace.empty) (submit 0 ⟨1, 0x1000, .DREAD⟩ ++ serve 0 0) = some x ∧
    x.1.step (.test 0) = some t ∧ t.pc 0 = .out ∧ ∃ c, x.1.pc 0 = .test c ∧ (c.d0, x.2.mine 0) ∈ x.2.consumed := by
  obtain ⟨x, t, run, last, before, after⟩ : ∃ x t,
      tracedSystem.run (State.boot, Trace.empty) (submit 0 ⟨1, 0x1000, .DREAD⟩ ++ serve 0 0) = some x ∧
      x.1.step (.test 0) = some t ∧ x.1.pc 0 ≠ .out ∧ t.pc 0 = .out := ⟨_, _, rfl, rfl, nofun, rfl⟩
  have reached : tracedSystem.Via NoKill x := System.Via.run_of (.init rfl) (by simp [submit, serve, NoKill]) run
  exact ⟨x, t, run, last, after, (completions_reach_their_calls reached).1 0 (.test 0) t last before after⟩

end Aarch64Os.Driver
