import Aarch64Os.Base.Transition
import Aarch64Os.Base.Counting
import Aarch64Os.Kernel.File

/-!
# The reference counts of the file table

The processes of the machine call `open`, `dup`, `close`, `fork`, `clone`, `exec`,
`exit` and `wait` in any order. A slot of `ftable` must not be given away while a
descriptor refers to it, so its count has to cover the descriptors. Every call keeps
that except `close`: it drops the count of a shared file and leaves the descriptor in
place. What is proved is that this is the only leak.
-/

namespace Aarch64Os.Kernel
set_option autoImplicit false
open Base

/-- The process can make calls: it has been published and has not exited. -/
def Proc.live (p : Proc) : Bool := p.state = .RUNNING ∨ p.state = .RUNNABLE ∨ p.state = .SLEEPING

/-- The calls, each with what the rest of the kernel answers it. -/
inductive FileCall
  | open (p : ProcId) (found : Option (InodeId × BitVec 16)) (flags : BitVec 32)
  | dup (p : ProcId) (fd : BitVec 32)
  | close (p : ProcId) (fd : BitVec 32)
  | fork (p : ProcId) (kstack pgt : Option PageNo) (copied : Bool)
  | clone (p : ProcId) (kstack pgt : Option PageNo)
  | exec (p : ProcId) (image : Option (PageNo × Nat))
  | exit (p : ProcId) (ret : Int)
  | wait (p : ProcId)

/-- The process that makes the call. -/
def FileCall.caller : FileCall → ProcId
  | .open p .. | .dup p _ | .close p _ | .fork p .. | .clone p .. | .exec p _ | .exit p _ | .wait p => p

namespace Files

/-- The state a call leads to. -/
def call (s : Files) : FileCall → Option Files
  | .open p found flags => some (s.open p found flags).2
  | .dup p fd => some (s.dup p fd).2
  | .close p fd => some (s.close p fd).2
  | .fork p kstack pgt copied => some (s.fork p kstack pgt copied).2
  | .clone p kstack pgt => some (s.clone p kstack pgt).2
  | .exec p image => some (s.exec p image)
  | .exit p ret => s.exitproc p ret
  | .wait p => s.wait p

/-- `file_init` and `userproc_init` have run: no file, no descriptor, one process. -/
structure Booted (s : Files) : Prop where
  files : s.files = fun _ => File.zero
  others : ∀ q, q ≠ initproc → s.procs q = Proc.zero
  runnable : (s.procs initproc).state = .RUNNABLE
  closed : (s.procs initproc).ofile = fun _ => none

/-- The machine: any live process makes the next call. -/
def system : System Files FileCall where
  init := Booted
  step s a := if (s.procs a.caller).live then s.call a else none

/-- The number of descriptors of processes that refer to `f`. -/
def count (s : Files) (f : FileId) : Nat :=
  (Finset.univ.filter fun x : ProcId × Fd =>
    (s.procs x.1).state ≠ .UNUSED ∧ (s.procs x.1).ofile x.2 = some f).card

end Files

/-- Descriptors of one process that refer to `f`. -/
def Proc.refs (p : Proc) (f : FileId) : Nat := ∑ fd, if p.ofile fd = some f then 1 else 0

/-- Descriptors of all slots that refer to `f`. -/
def Procs.refs (procs : Procs) (f : FileId) : Nat := ∑ p, (procs p).refs f

theorem Proc.refs_none {p : Proc} (h : p.ofile = fun _ => none) (f : FileId) : p.refs f = 0 := by
  simp [Proc.refs, h]

theorem Proc.refs_congr {p q : Proc} (h : p.ofile = q.ofile) (f : FileId) : p.refs f = q.refs f := by
  simp only [Proc.refs, h]

theorem Proc.refs_setFd (p : Proc) (fd : Fd) (x : Option FileId) (f : FileId) :
    (p.setFd fd x).refs f + (if p.ofile fd = some f then 1 else 0) = p.refs f + (if x = some f then 1 else 0) :=
  sum_update (fun o : Option FileId => if o = some f then 1 else 0) p.ofile fd x

/-- A descriptor is counted. -/
theorem Proc.refs_pos {p : Proc} {fd : Fd} {f : FileId} (h : p.ofile fd = some f) : 0 < p.refs f := by
  have := p.refs_setFd fd none f
  simp only [h, if_true, reduceCtorEq, if_false] at this
  omega

/-- Two descriptors are counted twice. -/
theorem Proc.refs_two {p : Proc} {fd fd' : Fd} {f : FileId} (h : p.ofile fd = some f) (h' : p.ofile fd' = some f)
    (ne : fd' ≠ fd) : 2 ≤ p.refs f := by
  have one := p.refs_setFd fd none f
  have : (p.setFd fd none).ofile fd' = some f := by simp [Proc.setFd, Function.update_of_ne ne, h']
  have pos := Proc.refs_pos this
  simp only [h, if_true, reduceCtorEq, if_false] at one
  omega

theorem Procs.refs_set (procs : Procs) (p : ProcId) (g : Proc → Proc) (f : FileId) :
    (procs.set p g).refs f + (procs p).refs f = procs.refs f + (g (procs p)).refs f :=
  sum_update (fun q : Proc => q.refs f) procs p (g (procs p))

theorem Procs.refs_congr {procs procs' : Procs} (h : ∀ q, (procs' q).ofile = (procs q).ofile) (f : FileId) :
    procs'.refs f = procs.refs f := Finset.sum_congr rfl fun q _ => Proc.refs_congr (h q) f

theorem Procs.refs_setFd (procs : Procs) (p : ProcId) (fd : Fd) (x : Option FileId) (f : FileId) :
    (procs.set p fun q => q.setFd fd x).refs f + (if (procs p).ofile fd = some f then 1 else 0) =
      procs.refs f + (if x = some f then 1 else 0) := by
  have whole := procs.refs_set p (fun q => q.setFd fd x) f
  have part := (procs p).refs_setFd fd x f
  omega

theorem Procs.le_refs (procs : Procs) (p : ProcId) (f : FileId) : (procs p).refs f ≤ procs.refs f :=
  Finset.single_le_sum (f := fun p => (procs p).refs f) (fun _ _ => Nat.zero_le _) (Finset.mem_univ p)

/-- Two processes count their descriptors separately. -/
theorem Procs.refs_two (procs : Procs) {p q : ProcId} {f : FileId} (ne : q ≠ p) :
    (procs p).refs f + (procs q).refs f ≤ procs.refs f := by
  rw [← Finset.sum_pair (f := fun r => (procs r).refs f) ne.symm]
  exact Finset.sum_le_sum_of_subset (Finset.subset_univ _)

theorem Proc.fget_some {p : Proc} {fd : BitVec 32} {f : FileId} (h : p.fget fd = some f) :
    ∃ lt : fd.toNat < NOFILE, p.ofile ⟨fd.toNat, lt⟩ = some f := by
  unfold Proc.fget at h
  split at h
  · exact ⟨_, h⟩
  · simp at h

theorem Proc.allocfd_some {p : Proc} {fd : Fd} (h : p.allocfd = some fd) : p.ofile fd = none := by
  simpa using List.find?_some h

theorem Proc.used_of_live {p : Proc} (h : p.live) : p.state ≠ .UNUSED := by
  intro unused
  simp [Proc.live, unused] at h

theorem FileTable.allocFile_some {files files' : FileTable} {f : FileId} (h : files.allocFile = some (f, files')) :
    (files f).ref = 0 ∧ files' = files.set f fun file => { file with ref := 1 } := by
  obtain ⟨slot, found, eq⟩ := Option.map_eq_some_iff.1 h
  obtain ⟨rfl, rfl⟩ := Prod.mk.inj eq
  exact ⟨by simpa using List.find?_some found, rfl⟩

/-- The critical section of `exitproc` moves no descriptor, and empties no slot. -/
theorem Procs.exitproc_kept (procs : Procs) (p q : ProcId) :
    (procs.exitproc p q).ofile = (procs q).ofile ∧
      ((procs.exitproc p q).state = .UNUSED → (procs q).state = .UNUSED) := by
  obtain ⟨parent, moved⟩ := procs.reparent_eq p q
  have woken := (procs.reparent p).wakeupAcquired_cases (((procs.reparent p) p).parent.map .proc) q
  by_cases e : q = p
  · subst e
    simp only [Procs.exitproc, Procs.set_self, reduceCtorEq, false_implies, and_true]
    rcases woken with same | ⟨-, same⟩ <;> rw [same, moved]
  · simp only [Procs.exitproc, Procs.set_ne _ _ e]
    rcases woken with same | ⟨-, same⟩ <;> rw [same]
    · rw [moved]; exact ⟨rfl, id⟩
    · rw [moved]; exact ⟨rfl, fun free => by simp at free⟩

@[simp] theorem File.access_ref (file : File) (flags : BitVec 32) : (file.access flags).ref = file.ref := by
  unfold File.access
  split
  · rfl
  split
  · rfl
  split <;> rfl

namespace Files

theorem count_le_refs (s : Files) (f : FileId) : s.count f ≤ s.procs.refs f := by
  rw [count, Finset.card_filter, ← Finset.univ_product_univ, Finset.sum_product]
  refine Finset.sum_le_sum fun p _ => Finset.sum_le_sum fun fd _ => ?_
  by_cases h : (s.procs p).ofile fd = some f <;> simp [h]
  split <;> omega

/-- The counts cover the descriptors, and a slot that can be taken has none. -/
structure Counted (s : Files) : Prop where
  le : ∀ f, s.procs.refs f ≤ (s.files f).ref
  clean : ∀ p, (s.procs p).state = .UNUSED → (s.procs p).ofile = fun _ => none

/-- What `close` does when its file has no other reference: nothing, or it clears the
descriptor and the slot. -/
theorem close_sole (s : Files) {p : ProcId} {fd : BitVec 32}
    (pos : ∀ {p : ProcId} {fd : Fd} {f : FileId}, (s.procs p).ofile fd = some f → 0 < (s.files f).ref)
    (sole : ∀ f, (s.procs p).fget fd = some f → (s.files f).ref ≤ 1) :
    (s.close p fd).2 = s ∨ ∃ f, ∃ d : Fd, (d : Nat) = fd.toNat ∧ (s.procs p).ofile d = some f ∧
      (s.files f).ref = 1 ∧
      (s.close p fd).2 = { s with
        procs := s.procs.set p fun q => q.setFd d none
        files := s.files.set f fun _ => File.zero } := by
  simp only [Files.close]
  cases got : (s.procs p).fget fd with
  | none => exact .inl rfl
  | some f =>
    obtain ⟨lt, refers⟩ := Proc.fget_some got
    have one : (s.files f).ref = 1 := by have := pos refers; have := sole f got; omega
    exact .inr ⟨f, ⟨fd.toNat, lt⟩, rfl, refers, one, by simp [one, lt]⟩

namespace Counted
variable {s t : Files} {p : ProcId} {fd : Fd} {f : FileId}

/-- A descriptor refers to a file that is not free. -/
theorem ref_pos (h : Counted s) (refers : (s.procs p).ofile fd = some f) : 0 < (s.files f).ref := by
  have := Proc.refs_pos refers
  have := s.procs.le_refs p f
  have := h.le f
  omega

/-- A step that moves no descriptor and lowers no count. -/
theorem congr (h : Counted s) (same : ∀ q, (t.procs q).ofile = (s.procs q).ofile)
    (unused : ∀ q, (t.procs q).state = .UNUSED → (s.procs q).state = .UNUSED)
    (ref : ∀ g, (s.files g).ref ≤ (t.files g).ref) : Counted t where
  le g := by
    rw [Procs.refs_congr same g]
    exact (h.le g).trans (ref g)
  clean q free := by rw [same q]; exact h.clean q (unused q free)

/-- A change of one slot that leaves its descriptors alone. -/
theorem setProc (h : Counted s) (g : Proc → Proc) (pid : Int) (same : (g (s.procs p)).ofile = (s.procs p).ofile)
    (used : (g (s.procs p)).state ≠ .UNUSED) : Counted { s with procs := s.procs.set p g, pid := pid } := by
  refine h.congr (fun q => ?_) (fun q free => ?_) fun g => le_rfl
  all_goals by_cases e : q = p
  · subst e; simpa using same
  · simp [Procs.set_ne _ _ e]
  · subst e; simp at free; exact absurd free used
  · simpa [Procs.set_ne _ _ e] using free

/-- A new descriptor, with one more reference to its file. -/
theorem addFd (h : Counted s) (empty : (s.procs p).ofile fd = none) (used : (s.procs p).state ≠ .UNUSED)
    {files : FileTable} (more : (s.procs.refs f) + 1 ≤ (files f).ref)
    (ref : ∀ g, g ≠ f → (s.files g).ref ≤ (files g).ref) :
    Counted { s with procs := s.procs.set p fun q => q.setFd fd (some f), files := files } where
  le g := by
    have moved := s.procs.refs_setFd p fd (some f) g
    rw [empty] at moved
    by_cases e : g = f
    · subst e
      simp only [reduceCtorEq, if_false, if_true] at moved
      change (s.procs.set p fun q => q.setFd fd (some _)).refs g ≤ (files g).ref
      omega
    · have ne : some f ≠ some g := fun eq => e (Option.some.inj eq).symm
      simp only [reduceCtorEq, if_false, ne] at moved
      have := h.le g
      have := ref g e
      change (s.procs.set p fun q => q.setFd fd (some _)).refs g ≤ (files g).ref
      omega
  clean q free := by
    change (s.procs.set p _ q).ofile = _
    change (s.procs.set p _ q).state = _ at free
    by_cases e : q = p
    · subst e
      rw [Procs.set_self] at free
      exact absurd free used
    · rw [Procs.set_ne _ _ e] at free ⊢
      exact h.clean q free

/-- A slot is emptied: its descriptors vanish. -/
theorem freeproc (h : Counted s) (p : ProcId) : Counted { s with procs := s.procs.freeproc p } where
  le g := by
    have moved := s.procs.refs_set p (fun _ => Proc.zero) g
    have none : Proc.zero.refs g = 0 := Proc.refs_none rfl g
    have := h.le g
    change (s.procs.set p fun _ => Proc.zero).refs g ≤ (s.files g).ref
    omega
  clean q free := by
    change (s.procs.set p (fun _ => Proc.zero) q).ofile = _
    change (s.procs.set p (fun _ => Proc.zero) q).state = _ at free
    by_cases e : q = p
    · subst e; simp [Proc.zero]
    · rw [Procs.set_ne _ _ e] at free ⊢
      exact h.clean q free

/-- `newproc`: the slot it returns is in use and has no descriptor. -/
theorem newproc (h : Counted s) (kstack pgt : Option PageNo) :
    Counted (s.newproc kstack pgt).2 ∧ ∀ new, (s.newproc kstack pgt).1 = some new →
      ((s.newproc kstack pgt).2.procs new).ofile = (fun _ => none) ∧
      ((s.newproc kstack pgt).2.procs new).state = .CREATED := by
  simp only [Files.newproc]
  cases found : s.procs.claim with
  | none => exact ⟨h, fun _ => by simp⟩
  | some claimed =>
    obtain ⟨slot, procs⟩ := claimed
    obtain ⟨unused, rfl⟩ := Procs.claim_some found
    obtain ⟨g, kept, filled, same⟩ := Procs.fill_eq (s.procs.set slot fun q => { q with state := .CREATED }) slot
      s.pid kstack pgt
    have claimed := h.setProc (p := slot) (fun q => { q with state := .CREATED }) s.pid rfl (by simp)
    refine ⟨?_, fun new given => ?_⟩
    · simp only [filled]
      exact claimed.setProc g _ (kept _).1 (by rw [(kept _).2]; simp)
    · obtain rfl := same new given
      simp [filled, kept, h.clean _ unused]

/-- One round of the copying loop. -/
theorem inheritFd (h : Counted s) {new : ProcId} (used : (s.procs new).state ≠ .UNUSED)
    (empty : (s.procs new).ofile fd = none) : Counted (Files.inheritFd p new s fd) := by
  simp only [Files.inheritFd]
  cases refers : (s.procs p).ofile fd with
  | none => exact h
  | some f =>
    refine h.addFd empty used ?_ fun g ne => ?_
    · have := h.le f
      simp only [FileTable.dupFile, FileTable.set_self]
      omega
    · rw [FileTable.dupFile, FileTable.set_ne _ _ ne]

/-- The round for `fd` changes no other descriptor of the new process. -/
theorem inheritFd_other {new : ProcId} {d : Fd} (ne : d ≠ fd) :
    ((Files.inheritFd p new s fd).procs new).ofile d = (s.procs new).ofile d := by
  simp only [Files.inheritFd]
  split
  · rfl
  · simp [Proc.setFd, Function.update_of_ne ne]

theorem inheritFd_state {new : ProcId} :
    ((Files.inheritFd p new s fd).procs new).state = (s.procs new).state := by
  simp only [Files.inheritFd]
  split
  · rfl
  · simp [Proc.setFd]

/-- The copying loop, over the descriptors still to come. -/
theorem inherit_from (p new : ProcId) (fds : List Fd) (nodup : fds.Nodup) :
    ∀ s : Files, Counted s → (s.procs new).state ≠ .UNUSED → (∀ d ∈ fds, (s.procs new).ofile d = none) →
      Counted (fds.foldl (Files.inheritFd p new) s) ∧
      ((fds.foldl (Files.inheritFd p new) s).procs new).state = (s.procs new).state := by
  induction fds with
  | nil => exact fun s h _ _ => ⟨h, rfl⟩
  | cons fd fds ih =>
    intro s h used empty
    obtain ⟨fresh, nodup⟩ := List.nodup_cons.1 nodup
    have first := h.inheritFd (p := p) used (empty fd List.mem_cons_self)
    have rest : ∀ d ∈ fds, ((Files.inheritFd p new s fd).procs new).ofile d = none := by
      intro d mem
      have ne : d ≠ fd := fun e => fresh (e ▸ mem)
      rw [inheritFd_other ne]
      exact empty d (List.mem_cons_of_mem _ mem)
    obtain ⟨counted, last⟩ := ih nodup _ first (by rwa [inheritFd_state]) rest
    exact ⟨counted, last.trans inheritFd_state⟩

theorem inherit (h : Counted s) {new : ProcId} (used : (s.procs new).state ≠ .UNUSED)
    (empty : (s.procs new).ofile = fun _ => none) :
    Counted (s.inherit p new) ∧ ((s.inherit p new).procs new).state = (s.procs new).state :=
  inherit_from p new _ (List.nodup_finRange _) s h used fun d _ => by rw [empty]

/-- Both `fork` and `clone` prepare the new slot, copy the descriptors and publish it. -/
theorem publish (h : Counted s) {new : ProcId} (used : (s.procs new).state ≠ .UNUSED)
    (empty : (s.procs new).ofile = fun _ => none) (prepare done : Proc → Proc)
    (prepared : ∀ q, (prepare q).ofile = q.ofile ∧ (prepare q).state = q.state)
    (ready : ∀ q, (done q).ofile = q.ofile ∧ (done q).state = .RUNNABLE) :
    let s := { s with procs := s.procs.set new prepare }
    let s := s.inherit p new
    Counted { s with procs := s.procs.set new done } := by
  intro s₁ s₂
  have first : Counted s₁ := h.setProc _ _ (prepared _).1 (by rw [(prepared _).2]; exact used)
  have used₁ : (s₁.procs new).state ≠ .UNUSED := by simpa [s₁, (prepared _).2] using used
  have second := first.inherit (p := p) used₁ (by simpa [s₁, (prepared _).1] using empty)
  exact second.1.setProc _ _ (ready _).1 (by rw [(ready _).2]; simp)

theorem fork (h : Counted s) (kstack pgt : Option PageNo) (copied : Bool) :
    Counted (s.fork p kstack pgt copied).2 := by
  obtain ⟨counted, given⟩ := h.newproc kstack pgt
  simp only [Files.fork]
  rcases made : s.newproc kstack pgt with ⟨_ | new, t⟩ <;> rw [made] at counted given
  · exact counted
  · obtain ⟨empty, created⟩ := given new rfl
    simp only
    split
    · exact counted.freeproc new
    · exact counted.publish (by rw [created]; simp) empty _ _ (fun _ => ⟨rfl, rfl⟩) fun _ => ⟨rfl, rfl⟩

theorem clone (h : Counted s) (kstack pgt : Option PageNo) : Counted (s.clone p kstack pgt).2 := by
  obtain ⟨counted, given⟩ := h.newproc kstack pgt
  simp only [Files.clone]
  rcases made : s.newproc kstack pgt with ⟨_ | new, t⟩ <;> rw [made] at counted given
  · exact counted
  · obtain ⟨empty, created⟩ := given new rfl
    exact counted.publish (by rw [created]; simp) empty _ _ (fun _ => ⟨rfl, rfl⟩) fun _ => ⟨rfl, rfl⟩

theorem dup (h : Counted s) (fd : BitVec 32) (live : (s.procs p).live) : Counted (s.dup p fd).2 := by
  simp only [Files.dup]
  split
  · exact h
  · rename_i f _
    cases free : (s.procs p).allocfd with
    | none => exact h
    | some newfd =>
      refine h.addFd (Proc.allocfd_some free) (Proc.used_of_live live) ?_ fun g ne => ?_
      · have := h.le f
        simp only [FileTable.dupFile, FileTable.set_self]
        omega
      · rw [FileTable.dupFile, FileTable.set_ne _ _ ne]

theorem «open» (h : Counted s) (found : Option (InodeId × BitVec 16)) (flags : BitVec 32)
    (live : (s.procs p).live) : Counted (s.open p found flags).2 := by
  rcases found with _ | ⟨ino, mode⟩
  · exact h
  simp only [Files.open]
  cases alloc : s.files.allocFile with
  | none => exact h
  | some taken =>
    obtain ⟨f, files⟩ := taken
    obtain ⟨zero, rfl⟩ := FileTable.allocFile_some alloc
    simp only
    -- the slot now has one reference and, since it had none, no descriptor
    have none : s.procs.refs f = 0 := by have := h.le f; omega
    have one : ∀ g, g ≠ f → (s.files g).ref ≤
        (((s.files.set f fun file => { file with ref := 1 }).set f fun file =>
          ({ file with ino := some ino, off := 0 }).access flags) g).ref := by
      intro g ne
      rw [FileTable.set_ne _ _ ne, FileTable.set_ne _ _ ne]
    have leak : Counted { s with files := (s.files.set f fun file => { file with ref := 1 }).set f fun file =>
        ({ file with ino := some ino, off := 0 }).access flags } := by
      refine h.congr (fun _ => rfl) (fun _ free => free) fun g => ?_
      by_cases e : g = f
      · subst e; simp [zero]
      · exact one g e
    split
    · exact leak
    · cases free : (s.procs p).allocfd with
      | none => exact leak
      | some fd => exact h.addFd (Proc.allocfd_some free) (Proc.used_of_live live) (by simp [none]) one

/-- `close` of a descriptor whose file has no other reference. -/
theorem close (h : Counted s) (fd : BitVec 32) (live : (s.procs p).live)
    (sole : ∀ f, (s.procs p).fget fd = some f → (s.files f).ref ≤ 1) : Counted (s.close p fd).2 := by
  rcases s.close_sole h.ref_pos sole with same | ⟨f, d, toNat, refers, one, closed⟩
  · rw [same]; exact h
  · rw [closed]
    have last := h.le f
    have moved := s.procs.refs_setFd p d none
    refine ⟨fun g => ?_, fun q free => ?_⟩
    · have moved := moved g
      change (s.procs.set p fun q => q.setFd d none).refs g ≤ (s.files.set f (fun _ => File.zero) g).ref
      by_cases e : g = f
      · subst e
        simp only [refers, if_true, reduceCtorEq, if_false] at moved
        omega
      · have ne : some f ≠ some g := fun eq => e (Option.some.inj eq).symm
        rw [FileTable.set_ne _ _ e]
        simp only [refers, ne, if_false, reduceCtorEq] at moved
        have := h.le g
        omega
    · change (s.procs.set p _ q).ofile = _
      change (s.procs.set p _ q).state = _ at free
      by_cases e : q = p
      · subst e
        rw [Procs.set_self] at free
        exact absurd free (Proc.used_of_live live)
      · rw [Procs.set_ne _ _ e] at free ⊢
        exact h.clean q free

/-- One round of the closing loop, for a process each of whose files has one reference. -/
theorem closeAll_from (p : ProcId) (fds : List Fd) :
    ∀ s : Files, Counted s → (s.procs p).live → (∀ d f, (s.procs p).ofile d = some f → (s.files f).ref ≤ 1) →
      Counted (fds.foldl (fun s (fd : Fd) => (s.close p (BitVec.ofNat 32 fd)).2) s) ∧
      ((fds.foldl (fun s (fd : Fd) => (s.close p (BitVec.ofNat 32 fd)).2) s).procs p).live := by
  induction fds with
  | nil => exact fun s h live _ => ⟨h, live⟩
  | cons fd fds ih =>
    intro s h live sole
    have solefd : ∀ f, (s.procs p).fget (BitVec.ofNat 32 fd) = some f → (s.files f).ref ≤ 1 := fun f got =>
      sole _ f (Proc.fget_some got).2
    have first := h.close (BitVec.ofNat 32 fd) live solefd
    rw [List.foldl_cons]
    rcases s.close_sole h.ref_pos solefd with same | ⟨f, d, -, refers, -, closed⟩
    · rw [same]
      exact ih s h live sole
    · rw [closed] at first ⊢
      refine ih _ first (by simpa [Proc.setFd, Proc.live] using live) fun d' g refers' => ?_
      simp only [Procs.set_self, Proc.setFd] at refers'
      by_cases e : g = f
      · subst e; simp [File.zero]
      · change (s.files.set f (fun _ => File.zero) g).ref ≤ 1
        rw [FileTable.set_ne _ _ e]
        by_cases ed : d' = d
        · subst ed; simp at refers'
        · rw [Function.update_of_ne ed] at refers'
          exact sole d' g refers'

theorem exitproc (h : Counted s) {ret : Int} (live : (s.procs p).live)
    (sole : ∀ d f, (s.procs p).ofile d = some f → (s.files f).ref ≤ 1) (step : s.exitproc p ret = some t) :
    Counted t := by
  unfold Files.exitproc at step
  split at step
  · simp at step
  · obtain ⟨closed, alive⟩ := closeAll_from p (List.finRange NOFILE) s h live sole
    have used := Proc.used_of_live alive
    obtain rfl := Option.some.inj step
    have returned := closed.setProc (p := p) (fun q => { q with ret := ret }) (s.closeAll p).pid rfl used
    exact returned.congr (fun q => (Procs.exitproc_kept _ _ q).1) (fun q => (Procs.exitproc_kept _ _ q).2) fun g => le_rfl

theorem exec (h : Counted s) (image : Option (PageNo × Nat)) (live : (s.procs p).live) :
    Counted (s.exec p image) := by
  cases image with
  | none => exact h
  | some image => exact h.setProc _ s.pid rfl (Proc.used_of_live live)

theorem wait (h : Counted s) (step : s.wait p = some t) : Counted t := by
  obtain ⟨child, -, rfl⟩ := Option.map_eq_some_iff.1 step
  exact h.freeproc child

end Counted

/-- `close` is applied only to a descriptor whose file has no other reference, and a
process exits only when every file it has open has no other reference. -/
def SoleCloses (s : Files) : FileCall → Prop
  | .close p fd => ∀ f, (s.procs p).fget fd = some f → (s.files f).ref ≤ 1
  | .exit p _ => ∀ fd f, (s.procs p).ofile fd = some f → (s.files f).ref ≤ 1
  | _ => True

theorem Counted.start {s : Files} (h : Booted s) : Counted s where
  le f := by
    have none : ∀ q, (s.procs q).refs f = 0 := fun q => by
      by_cases e : q = initproc
      · subst e; exact Proc.refs_none h.closed f
      · rw [h.others q e]; exact Proc.refs_none rfl f
    simp [Procs.refs, none]
  clean q free := by
    by_cases e : q = initproc
    · subst e; exact h.closed
    · rw [h.others q e]; rfl

theorem Counted.keep {s t : Files} {a : FileCall} (h : Counted s) (ok : SoleCloses s a)
    (step : system.step s a = some t) : Counted t := by
  simp only [system] at step
  split at step
  case isFalse => simp at step
  case isTrue live =>
    cases a with
    | «open» p found flags => cases step; exact h.open found flags live
    | dup p fd => cases step; exact h.dup fd live
    | close p fd => cases step; exact h.close fd live ok
    | fork p kstack pgt copied => cases step; exact h.fork kstack pgt copied
    | clone p kstack pgt => cases step; exact h.clone kstack pgt
    | exec p image => cases step; exact h.exec image live
    | exit p ret => exact h.exitproc live ok step
    | wait p => exact h.wait step

theorem Counted.via {s : Files} (h : system.Via SoleCloses s) : Counted s :=
  h.invariant (I := Counted) (fun _ => Counted.start) fun _ _ _ inv ok step => inv.keep ok step

/-- What `close` is to do when it returns 0: its descriptor is gone, and every other
descriptor of the same file still refers to it, with nothing but the count changed. -/
structure ClosedCleanly (s t : Files) (p : ProcId) (fd : BitVec 32) : Prop where
  gone : (t.procs p).fget fd = none
  others : ∀ f, (s.procs p).fget fd = some f → ∀ q (d : Fd), (q = p → (d : Nat) ≠ fd.toNat) →
    (s.procs q).ofile d = some f → (t.procs q).ofile d = some f ∧ (t.files f).ino = (s.files f).ino ∧
      (t.files f).off = (s.files f).off ∧ (t.files f).readable = (s.files f).readable ∧
      (t.files f).writable = (s.files f).writable

/-- Where the counts cover the descriptors, a file referred to once has one descriptor. -/
theorem Counted.unique {s : Files} (h : Counted s) {p q : ProcId} {d e : Fd} {f : FileId}
    (refers : (s.procs p).ofile d = some f) (refers' : (s.procs q).ofile e = some f)
    (one : (s.files f).ref ≤ 1) : q = p ∧ e = d := by
  have le := (h.le f).trans one
  by_cases same : q = p
  · subst same
    refine ⟨rfl, ?_⟩
    by_contra ne
    have two := Proc.refs_two refers refers' ne
    have := s.procs.le_refs q f
    omega
  · have two := s.procs.refs_two (f := f) same
    have := Proc.refs_pos refers
    have := Proc.refs_pos refers'
    omega

/-- A successful `close` is clean exactly when the file has no other reference. -/
theorem Counted.closed_cleanly {s : Files} (h : Counted s) {p : ProcId} {fd : BitVec 32}
    (zero : (s.close p fd).1 = 0) : ClosedCleanly s (s.close p fd).2 p fd ↔ SoleCloses s (.close p fd) := by
  obtain ⟨f, got⟩ : ∃ f, (s.procs p).fget fd = some f := by
    cases got : (s.procs p).fget fd with
    | none => simp [Files.close, got] at zero
    | some f => exact ⟨f, rfl⟩
  obtain ⟨lt, refers⟩ := Proc.fget_some got
  constructor
  · intro clean g got'
    obtain rfl : f = g := Option.some.inj (got.symm.trans got')
    -- a shared file keeps the descriptor
    by_contra shared
    have kept : (s.close p fd).2.procs = s.procs := by
      have pos : (s.files f).ref ≠ 0 := by omega
      have more : 0 < (s.files f).ref - 1 := by omega
      simp only [Files.close, got, pos, if_false, FileTable.set_self]
      rw [if_pos more]
    have gone := clean.gone
    rw [kept, got] at gone
    simp at gone
  · intro sole
    rcases s.close_sole h.ref_pos sole with same | ⟨g, d, toNat, refers', one, closed⟩
    · have le := sole f got
      have pos := h.ref_pos refers
      have one : (s.files f).ref = 1 := by omega
      have gone : ((s.close p fd).2.procs p).ofile ⟨fd.toNat, lt⟩ = none := by
        simp [Files.close, got, one, lt, Proc.setFd]
      rw [same, refers] at gone
      simp at gone
    · obtain rfl : d = ⟨fd.toNat, lt⟩ := Fin.ext toNat
      refine ⟨?_, fun g' got' q e other refers'' => ?_⟩
      · rw [closed]
        simp [Proc.fget, lt, Proc.setFd]
      · obtain rfl : f = g' := Option.some.inj (got.symm.trans got')
        obtain ⟨rfl, rfl⟩ := h.unique refers refers'' (sole f got)
        exact absurd rfl (other rfl)

/-- **Counts and descriptors.** Over runs that only ever close sole references, every
slot of `ftable` counts at least the descriptors that refer to it, so a descriptor
never refers to a free slot. In the states such runs reach, a `close` that returns 0
clears its descriptor and spares the others exactly when the reference was the only one. -/
theorem count_covers_descriptors (s : Files) :
    (system.Via SoleCloses s → (∀ f, s.count f ≤ (s.files f).ref) ∧
      ∀ p fd f, (s.procs p).state ≠ .UNUSED → (s.procs p).ofile fd = some f → 0 < (s.files f).ref) ∧
    (system.Via SoleCloses s → ∀ p fd, (s.procs p).live → (s.close p fd).1 = 0 →
      (ClosedCleanly s (s.close p fd).2 p fd ↔ SoleCloses s (.close p fd))) := by
  refine ⟨fun via => ?_, fun via p fd _ zero => (Counted.via via).closed_cleanly zero⟩
  have counted := Counted.via via
  exact ⟨fun f => (s.count_le_refs f).trans (counted.le f), fun p fd f _ refers => counted.ref_pos refers⟩

/-- The machine as `userproc_init` leaves it. -/
def boot : Files where
  procs := Procs.set (fun _ => Proc.zero) initproc fun q =>
    { q with state := .RUNNABLE, kstack := some 0, pgt := some 1 }
  pid := 1
  files := fun _ => File.zero

theorem boot_booted : Booted boot where
  files := rfl
  others q ne := by
    simp only [boot]
    rw [Procs.set_ne _ _ ne]
  runnable := by simp [boot]
  closed := by simp [boot, Proc.zero]

/-- `initproc` opens a file. -/
def opened : FileCall := .open initproc (some (2, 0x8000#16)) O_RDONLY

theorem count_covers_descriptors_opened :
    ∃ s, system.Via SoleCloses s ∧ (s.procs initproc).ofile 0 = some 0 ∧ s.count 0 ≤ (s.files 0).ref ∧
      0 < (s.files 0).ref ∧ (s.close initproc 0#32).1 = 0 ∧ ClosedCleanly s (s.close initproc 0#32).2 initproc 0#32 := by
  obtain ⟨s, step, refers, one, zero, live, used⟩ : ∃ s, system.step boot opened = some s ∧
      (s.procs initproc).ofile 0 = some 0 ∧ (s.files 0).ref = 1 ∧ (s.close initproc 0#32).1 = 0 ∧
      (s.procs initproc).live ∧ (s.procs initproc).state = .RUNNABLE :=
    ⟨_, rfl, rfl, rfl, rfl, rfl, rfl⟩
  have via : system.Via SoleCloses s := 
    .step (.init boot_booted) (show SoleCloses boot opened from trivial) step
  have sole : SoleCloses s (.close initproc 0#32) := by
    intro f got
    obtain ⟨_, refers'⟩ := Proc.fget_some got
    obtain rfl : (0 : FileId) = f := Option.some.inj (refers.symm.trans refers')
    exact one.le
  have runs := (count_covers_descriptors s).1 via
  exact ⟨s, via, refers, runs.1 0, runs.2 initproc 0 0 (by rw [used]; simp) refers, zero,
    ((count_covers_descriptors s).2 via initproc 0#32 live zero).2 sole⟩

/-- `open`, `dup`, `close`: the closed descriptor stays, and the file counts one
reference for two descriptors. -/
theorem close_keeps_shared_descriptor :
    ∃ s t, system.Reach s ∧ s.close initproc 1#32 = (0, t) ∧ ¬ ClosedCleanly s t initproc 1#32 ∧
      system.Reach t ∧ (t.files 0).ref < t.count 0 := by
  obtain ⟨s, t, run, closed, live, gone, one, first, second, used⟩ : ∃ s t,
      system.run boot [opened, .dup initproc 0#32] = some s ∧ s.close initproc 1#32 = (0, t) ∧
      (s.procs initproc).live ∧ (t.procs initproc).fget 1#32 = some 0 ∧ (t.files 0).ref = 1 ∧
      (t.procs initproc).ofile 0 = some 0 ∧ (t.procs initproc).ofile 1 = some 0 ∧
      (t.procs initproc).state = .RUNNABLE :=
    ⟨_, _, rfl, rfl, rfl, rfl, rfl, rfl, rfl, rfl⟩
  have reached : system.Reach s := (System.Via.init boot_booted).run run
  have step : system.step s (.close initproc 1#32) = some t := by
    simp [system, FileCall.caller, live, Files.call, closed]
  refine ⟨s, t, reached, closed, fun clean => ?_, .step reached trivial step, ?_⟩
  · have := clean.gone
    rw [gone] at this
    simp at this
  · have pair : {(initproc, 0), (initproc, 1)} ⊆ Finset.univ.filter fun x : ProcId × Fd =>
        (t.procs x.1).state ≠ .UNUSED ∧ (t.procs x.1).ofile x.2 = some 0 := by
      refine Finset.insert_subset_iff.2 ⟨?_, Finset.singleton_subset_iff.2 ?_⟩
      · simp [used, first]
      · simp [used, second]
    have two := Finset.card_le_card pair
    have ne : ((initproc, 0) : ProcId × Fd) ≠ (initproc, 1) := fun e => absurd (congrArg Prod.snd e) (by decide)
    rw [Finset.card_pair ne] at two
    rw [one]
    exact two

end Files

end Aarch64Os.Kernel
