import Mathlib
import Aarch64Os.Kernel.Ext2.FailedCalls
import Aarch64Os.Kernel.Ext2.NodeKept
import Aarch64Os.Kernel.FileIo
import Aarch64Os.Kernel.InodeOwners

/-!
# What reads and writes of a made node reach (`kernel/file.c`, `kernel/ext2.c`, `kernel/cdev.c`)

`mknod` takes any mode and device. Its type selects an entry of a table of fifteen there, and in
every later read and write a branch; the device selects an entry of `cdevsw` of thirty-two. None of
the three is checked, so a user who makes the node chooses what they reach.
-/

namespace Aarch64Os.Kernel
set_option autoImplicit false
open Base

section Calls
variable {δ : Type}

/-- `read`. -/
def readCall (cdevsw : Fin NCDEV → Cdevsw δ) (p : ProcId) (fd : BitVec 32) (sz : BitVec 64) (s : Kern × δ) :
    Except Fault ((Int × List (BitVec 8)) × (Kern × δ)) :=
  match (s.1.files.procs p).fget fd with
  | none => .ok ((-1, []), s)
  | some f => (readFile cdevsw (s.1.files.files f) sz (s.1.fs, s.2)).map fun r =>
      (r.1.1, ({ files := { s.1.files with files := s.1.files.files.set f fun _ => r.1.2 }, fs := r.2.1 }, r.2.2))

/-- `write`. -/
def writeCall (cdevsw : Fin NCDEV → Cdevsw δ) (p : ProcId) (fd : BitVec 32) (buf : Nat → BitVec 8) (sz : BitVec 64)
    (s : Kern × δ) : Except Fault (Int × (Kern × δ)) :=
  match (s.1.files.procs p).fget fd with
  | none => .ok (-1, s)
  | some f => (writeFile cdevsw (s.1.files.files f) buf sz (s.1.fs, s.2)).map fun r =>
      (r.1.1, ({ files := { s.1.files with files := s.1.files.files.set f fun _ => r.1.2 }, fs := r.2.1 }, r.2.2))

/-- The calls of the machine, and `read` and `write`. -/
inductive IoAct
  | kern (a : KernAct)
  | read (p : ProcId) (fd : BitVec 32) (sz : BitVec 64)
  | write (p : ProcId) (fd : BitVec 32) (buf : Nat → BitVec 8) (sz : BitVec 64)

/-- The machine with its devices. -/
def ioSystem (cdevsw : Fin NCDEV → Cdevsw δ) : System (Kern × δ) IoAct where
  init s := s.1.Booted
  step s
    | .kern a => (Kern.system.step s.1 a).map fun t => (t, s.2)
    | .read p fd sz => if (s.1.files.procs p).live then (readCall cdevsw p fd sz s).toOption.map Prod.snd else none
    | .write p fd buf sz => if (s.1.files.procs p).live then (writeCall cdevsw p fd buf sz s).toOption.map Prod.snd else none

end Calls

section Served
variable {δ α φ : Type}

/-- The type and the device lead to the file system, or to a function of a registered driver. -/
def Served (fn : Fin NCDEV → Option φ) (mode : BitVec 16) (dev : BitVec 32) : Prop :=
  mode &&& S_IFMT = S_IFREG ∨ mode &&& S_IFMT = S_IFDIR ∨
    mode &&& S_IFMT = S_IFCHR ∧ ∃ h : dev.toNat < NCDEV, (fn ⟨dev.toNat, h⟩).isSome

/-- A call is refused, or is carried out as one of a regular file or a directory, or by the driver
of the device. -/
def Carried (call refused asInode : IoM δ α) (byDriver : φ → IoM δ α) (fn : Fin NCDEV → Option φ) (mode : BitVec 16)
    (dev : BitVec 32) (s : Fs × δ) : Prop :=
  call s = refused s ∨
    (mode &&& S_IFMT = S_IFREG ∨ mode &&& S_IFMT = S_IFDIR) ∧ call s = asInode s ∨
      mode &&& S_IFMT = S_IFCHR ∧ ∃ (h : dev.toNat < NCDEV) (f : φ), fn ⟨dev.toNat, h⟩ = some f ∧ call s = byDriver f s

/-- The two branches of `read_file` and `write_file`. -/
def Server.carry (asInode : IoM δ α) (byDriver : φ → IoM δ α) : Server φ → IoM δ α
  | .inode => asInode
  | .driver fn => byDriver fn

/-- `read_file` of a regular file or a directory. -/
def readAsInode (file : File) (ino : InodeId) (sz : BitVec 64) : IoM δ ((Int × List (BitVec 8)) × File) := do
  let (n, bytes) ← IoM.ofFs (ext2ReadInode ino (BitVec.ofNat 64 file.off) sz)
  if n < 0 then pure ((-1, bytes), file) else pure ((n, bytes), file.advance n)

/-- `read_file` of a character device. -/
def readByDriver (file : File) (sz : BitVec 64)
    (read : File → BitVec 64 → StateT δ (Except Fault) (Int × List (BitVec 8))) : IoM δ ((Int × List (BitVec 8)) × File) := do
  let r ← IoM.ofDev (read file sz)
  pure (r, file)

/-- `write_file` of a regular file or a directory. -/
def writeAsInode (file : File) (ino : InodeId) (buf : Nat → BitVec 8) (sz : BitVec 64) : IoM δ (Int × File) := do
  let n ← IoM.ofFs (ext2WInode ino buf (BitVec.ofNat 64 file.off) sz)
  if n < 0 then pure (-1, file) else pure (n, file.advance n)

/-- `write_file` of a character device. -/
def writeByDriver (file : File) (buf : Nat → BitVec 8) (sz : BitVec 64)
    (write : File → (Nat → BitVec 8) → BitVec 64 → StateT δ (Except Fault) Int) : IoM δ (Int × File) := do
  let n ← IoM.ofDev (write file buf sz)
  pure (n, file)

/-- A read of an open file of a node is carried out as its type and device say. -/
def ReadCarried (cdevsw : Fin NCDEV → Cdevsw δ) (node : InodeId) (mode : BitVec 16) (dev : BitVec 32) (file : File) (sz : BitVec 64) :
    Fs × δ → Prop :=
  Carried (readFile cdevsw file sz) (pure ((-1, []), file)) (readAsInode file node sz) (readByDriver file sz)
    (fun m => (cdevsw m).read) mode dev

/-- So is a write. -/
def WriteCarried (cdevsw : Fin NCDEV → Cdevsw δ) (node : InodeId) (mode : BitVec 16) (dev : BitVec 32) (file : File)
    (buf : Nat → BitVec 8) (sz : BitVec 64) : Fs × δ → Prop :=
  Carried (writeFile cdevsw file buf sz) (pure (-1, file)) (writeAsInode file node buf sz) (writeByDriver file buf sz)
    (fun m => (cdevsw m).write) mode dev

variable {fn : Fin NCDEV → Option φ} {x : Inode} {s : Fs × δ}

theorem IoM.bind_congr {β : Type} {f : IoM δ α} {g h : α → IoM δ β} (same : ∀ a, g a = h a) (s : Fs × δ) :
    (f >>= g) s = (f >>= h) s := by rw [funext same]

theorem IoM.after_ofFs {f : FsM α} {s : Fs × δ} {P : Fs → Prop} (holds : After f s.1 fun _ t => P t) :
    After (IoM.ofFs f : IoM δ α) s fun _ t => P t.1 := by
  intro a t run
  unfold IoM.ofFs at run
  cases ran : f s.1 with
  | error e =>
    rw [ran] at run
    cases run
  | ok r =>
    rw [ran] at run
    cases run
    exact holds r.1 r.2 ran

theorem IoM.after_ofDev (f : StateT δ (Except Fault) α) (s : Fs × δ) : After (IoM.ofDev f : IoM δ α) s fun _ t => t.1 = s.1 := by
  intro a t run
  unfold IoM.ofDev at run
  cases ran : f s.2 with
  | error e =>
    rw [ran] at run
    cases run
  | ok r =>
    rw [ran] at run
    cases run
    rfl

/-- What the `switch` finds for an inode that is served. -/
theorem serverOf_served (served : Served fn x.mode x.major) :
    ((x.mode &&& S_IFMT = S_IFREG ∨ x.mode &&& S_IFMT = S_IFDIR) ∧ serverOf fn x = .ok .inode) ∨
      x.mode &&& S_IFMT = S_IFCHR ∧ ∃ (h : x.major.toNat < NCDEV) (f : φ), fn ⟨x.major.toNat, h⟩ = some f ∧
        serverOf fn x = .ok (.driver f) := by
  unfold serverOf
  by_cases type : x.mode &&& S_IFMT = S_IFREG ∨ x.mode &&& S_IFMT = S_IFDIR
  · exact .inl ⟨type, if_pos type⟩
  · obtain ⟨chr, h, some⟩ := (or_assoc.2 served).resolve_left type
    obtain ⟨f, eq⟩ := Option.isSome_iff_exists.1 some
    refine .inr ⟨chr, h, f, eq, ?_⟩
    rw [if_neg type, if_pos chr, dif_pos h, eq]

/-- For any other the index is past the end of `cdevsw`, the function is null, or the kernel panics. -/
theorem serverOf_unserved (unserved : ¬ Served fn x.mode x.major) :
    serverOf fn x = .error .undefined ∨ serverOf fn x = .error (.panic "unknown ftype") := by
  unfold Served at unserved
  rw [← or_assoc, not_or] at unserved
  obtain ⟨type, device⟩ := unserved
  unfold serverOf
  rw [if_neg type]
  split
  case isFalse => exact .inr rfl
  case isTrue chr =>
    left
    split
    case isFalse => rfl
    case isTrue h =>
      cases eq : fn ⟨x.major.toNat, h⟩ with
      | none => rfl
      | some f => exact absurd ⟨chr, h, by rw [eq]; rfl⟩ device

/-- A call that goes where the `switch` sends it. -/
theorem carried_iff {call refused asInode : IoM δ α} {byDriver : φ → IoM δ α} (returns : ∀ e, refused s ≠ .error e)
    (goes : call s = (liftM (serverOf fn x) >>= Server.carry asInode byDriver) s) :
    Carried call refused asInode byDriver fn x.mode x.major s ↔ Served fn x.mode x.major := by
  constructor
  · intro carried
    by_contra unserved
    obtain ⟨e, eq⟩ : ∃ e, serverOf fn x = .error e := (serverOf_unserved unserved).elim (fun eq => ⟨_, eq⟩) fun eq => ⟨_, eq⟩
    obtain refused | ⟨type, -⟩ | ⟨chr, h, f, some, -⟩ := carried
    · rw [eq] at goes
      exact returns e (refused.symm.trans goes)
    · exact unserved (or_assoc.1 (.inl type))
    · exact unserved (.inr (.inr ⟨chr, h, by rw [some]; rfl⟩))
  · intro served
    obtain ⟨type, eq⟩ | ⟨chr, h, f, some, eq⟩ := serverOf_served served
    · rw [eq] at goes
      exact .inr (.inl ⟨type, goes⟩)
    · rw [eq] at goes
      exact .inr (.inr ⟨chr, h, f, some, goes⟩)

variable (cdevsw : Fin NCDEV → Cdevsw δ) {file : File} {node : InodeId}

/-- A readable file of a node goes where the `switch` sends it. -/
theorem readFile_goes (readable : file.readable = true) (here : file.ino = some node) (sz : BitVec 64) :
    readFile cdevsw file sz s = (liftM (serverOf (fun m => (cdevsw m).read) (s.1.itable node)) >>=
      Server.carry (readAsInode file node sz) (readByDriver file sz)) s := by
  unfold readFile
  rw [if_neg (by simp [readable]), here]
  dsimp only
  rw [bind_runs (get_runs s)]
  apply IoM.bind_congr
  intro server
  cases server <;> rfl

theorem writeFile_goes (writable : file.writable = true) (here : file.ino = some node) (buf : Nat → BitVec 8) (sz : BitVec 64) :
    writeFile cdevsw file buf sz s = (liftM (serverOf (fun m => (cdevsw m).write) (s.1.itable node)) >>=
      Server.carry (writeAsInode file node buf sz) (writeByDriver file buf sz)) s := by
  unfold writeFile
  rw [if_neg (by simp [writable]), here]
  dsimp only
  rw [bind_runs (get_runs s)]
  apply IoM.bind_congr
  intro server
  cases server <;> rfl

/-- **`read_file`** of a node: refused, or carried out exactly when its type and device are served. -/
theorem readCarried_iff (here : file.ino = some node) (sz : BitVec 64) :
    ReadCarried cdevsw node (s.1.itable node).mode (s.1.itable node).major file sz s ↔
      file.readable = false ∨ Served (fun m => (cdevsw m).read) (s.1.itable node).mode (s.1.itable node).major := by
  cases readable : file.readable with
  | false => exact iff_of_true (.inl (by unfold readFile; rw [if_pos readable])) (.inl rfl)
  | true =>
    rw [or_iff_right (by decide)]
    exact carried_iff (fun e never => nomatch never) (readFile_goes cdevsw readable here sz)

/-- **`write_file`** likewise. -/
theorem writeCarried_iff (here : file.ino = some node) (buf : Nat → BitVec 8) (sz : BitVec 64) :
    WriteCarried cdevsw node (s.1.itable node).mode (s.1.itable node).major file buf sz s ↔
      file.writable = false ∨ Served (fun m => (cdevsw m).write) (s.1.itable node).mode (s.1.itable node).major := by
  cases writable : file.writable with
  | false => exact iff_of_true (.inl (by unfold writeFile; rw [if_pos writable])) (.inl rfl)
  | true =>
    rw [or_iff_right (by decide)]
    exact carried_iff (fun e never => nomatch never) (writeFile_goes cdevsw writable here buf sz)

end Served

section Runs
variable {δ : Type} {cdevsw : Fin NCDEV → Cdevsw δ} {node : InodeId} {mode : BitVec 16} {dev : BitVec 32}

/-- What holds of the file system behind a call. -/
theorem Kern.fs_after {α : Type} {P : Fs → Prop} {s t : Kern} {f : FsM α} {k : α → Fs → Option Files}
    (holds : After f s.fs fun _ u => P u) (step : s.after f k = some t) : P t.fs := by
  obtain ⟨a, run, -⟩ := after_some step
  exact holds a t.fs run

theorem steady_readAll (ino : InodeId) (reads : List (BitVec 64 × BitVec 64)) : ∀ s : Fs,
    After (Kern.readAll ino reads) s fun _ t => s.Quiet t ∧ s.Steady t := by
  induction reads with
  | nil => exact fun s => After.pure ⟨.refl s, .refl s⟩
  | cons r reads ih =>
    intro s
    obtain ⟨off, size⟩ := r
    refine After.bind ((quiet_ext2ReadInode s ino off size).and (steady_ext2ReadInode s ino off size)) ?_
    rintro _ t ⟨quiet, steady⟩
    exact (ih t).mono fun _ u rest => ⟨quiet.trans rest.1, steady.trans rest.2⟩

/-- The lookup of `exec` by its loads. -/
theorem rule_execFile {R : List InodeId → Fs → Fs → Prop} (rule : LoadRule R) (reads : ∀ s t : Fs, s.Quiet t → s.Steady t → R [] s t)
    (s : Fs) (cwd : InodeId) (path : List Chr) (rs : List (BitVec 64 × BitVec 64)) :
    After (Kern.execFile cwd path rs) s fun _ t => R (pathLoads AtEnd cwd path s) s t := by
  unfold Kern.execFile
  refine After.bind (rule.ext2Path2inode s cwd path) ?_
  rintro (_ | ino) t lookup
  · exact After.pure lookup
  · refine After.bind (steady_readAll ino rs t) ?_
    rintro _ u ⟨quiet, steady⟩
    apply After.pure
    have both := rule.trans lookup (reads t u quiet steady)
    rwa [List.append_nil] at both

/-- Every call keeps buffers and inodes in order. -/
theorem Kern.sane_step {s t : Kern} {a : KernAct} (h : s.fs.Sane) (step : system.step s a = some t) : t.fs.Sane := by
  have lookup : ∀ cwd path, After (ext2Path2inode cwd path) s.fs fun _ u => u.Sane := fun cwd path =>
    (sane_rule.ext2Path2inode s.fs cwd path).mono fun _ _ kept => kept.2 h
  have make : ∀ cwd path mode dev, After (ext2Mknod cwd path mode dev) s.fs fun _ u => u.Sane :=
    fun cwd path mode dev => (keeps_ext2Mknod s.fs cwd path mode dev).mono fun _ _ kept => kept.2.1 h
  cases a with
  | tail p =>
    simp only [system] at step
    split at step
    case isFalse => cases step
    case isTrue =>
    unfold Kern.tail at step
    split at step
    case h_1 => exact Option.some.inj step ▸ h
    case h_2 => exact fs_after (lookup 0 [SLASH]) step
  | call p c =>
    simp only [system] at step
    split at step
    case isFalse => cases step
    case isTrue =>
    obtain ⟨cwd, -, step⟩ := Option.bind_eq_some_iff.1 step
    cases c with
    | «open» path flags => exact fs_after (lookup cwd path) step
    | close fd =>
      cases step
      exact h
    | chdir path => exact fs_after (lookup cwd path) step
    | exec path reads image =>
      refine fs_after (P := Fs.Sane) ?_ step
      refine (rule_execFile sane_rule ?_ s.fs cwd path reads).mono fun _ _ kept => kept.2 h
      exact fun _ _ _ steady => ⟨steady.sb, steady.sane⟩
    | fork kstack pgt copied =>
      cases step
      exact h
    | exit ret =>
      obtain ⟨files, -, rfl⟩ := Option.map_eq_some_iff.1 step
      exact h
    | mkdir path => exact fs_after (make cwd path _ 0) step
    | mknod path mode dev => exact fs_after (make cwd path mode dev) step

theorem Kern.Booted.sane {s : Kern} (h : s.Booted) : s.fs.Sane := by
  obtain ⟨disk, mount⟩ := h.mounted
  obtain ⟨-, table⟩ := (Fs.boot_coherent disk).ext2Init_ok mount
  obtain ⟨clear, shows, once⟩ := (Fs.boot_coherent disk).mirrored
  rw [table]
  refine ⟨⟨clear, shows, once⟩, ?_, ?_⟩
  · exact fun i pos => absurd rfl pos
  · exact fun i j pos => absurd rfl pos

/-- A value that may be missing changes no state. -/
theorem after_lifted {σ α : Type} (s : σ) (x : Except Fault α) : After (liftM x : StateT σ (Except Fault) α) s fun _ t => t = s :=
  After.lift fun _ _ => rfl

/-- A read does to the file system what it does to the inode. -/
theorem readFile_fs {P : Fs → Prop} {file : File} {sz : BitVec 64} {s : Fs × δ} (same : P s.1)
    (reads : ∀ ino, file.ino = some ino → After (ext2ReadInode ino (BitVec.ofNat 64 file.off) sz) s.1 fun _ t => P t) :
    After (readFile cdevsw file sz) s fun _ t => P t.1 := by
  unfold readFile
  split
  · exact After.pure same
  split
  case h_1 => exact After.pure same
  case h_2 ino here =>
  refine After.step (get_runs s) ?_
  refine After.bind (after_lifted s _) ?_
  rintro server _ rfl
  cases server with
  | inode =>
    refine After.bind (IoM.after_ofFs (reads ino here)) ?_
    rintro ⟨n, bytes⟩ t done
    dsimp only
    split
    · exact After.pure done
    · exact After.pure done
  | driver read =>
    refine After.bind (IoM.after_ofDev _ _) ?_
    rintro r t done
    apply After.pure
    rwa [done]

/-- So does a write. -/
theorem writeFile_fs {P : Fs → Prop} {file : File} {buf : Nat → BitVec 8} {sz : BitVec 64} {s : Fs × δ} (same : P s.1)
    (writes : ∀ ino, file.ino = some ino → After (ext2WInode ino buf (BitVec.ofNat 64 file.off) sz) s.1 fun _ t => P t) :
    After (writeFile cdevsw file buf sz) s fun _ t => P t.1 := by
  unfold writeFile
  split
  · exact After.pure same
  split
  case h_1 => exact After.pure same
  case h_2 ino here =>
  refine After.step (get_runs s) ?_
  refine After.bind (after_lifted s _) ?_
  rintro server _ rfl
  cases server with
  | inode =>
    refine After.bind (IoM.after_ofFs (writes ino here)) ?_
    intro n t done
    split
    · exact After.pure done
    · exact After.pure done
  | driver write =>
    refine After.bind (IoM.after_ofDev _ _) ?_
    rintro r t done
    apply After.pure
    rwa [done]

/-- What holds of the file system behind `read`, -/
theorem readCall_fs {P : Fs → Prop} {s t : Kern × δ} {p : ProcId} {fd : BitVec 32} {sz : BitVec 64} (same : P s.1.fs)
    (reads : ∀ ino off, After (ext2ReadInode ino off sz) s.1.fs fun _ u => P u)
    (step : (readCall cdevsw p fd sz s).toOption.map Prod.snd = some t) : P t.1.fs := by
  unfold readCall at step
  split at step
  case h_1 =>
    cases step
    exact same
  case h_2 f got =>
    cases run : readFile cdevsw (s.1.files.files f) sz (s.1.fs, s.2) with
    | error e =>
      rw [run] at step
      cases step
    | ok r =>
      rw [run] at step
      cases step
      exact readFile_fs same (fun ino _ => reads ino _) r.1 r.2 run

/-- and behind `write`. -/
theorem writeCall_fs {P : Fs → Prop} {s t : Kern × δ} {p : ProcId} {fd : BitVec 32} {buf : Nat → BitVec 8} {sz : BitVec 64}
    (same : P s.1.fs) (writes : ∀ f ino off, (s.1.files.procs p).fget fd = some f → (s.1.files.files f).ino = some ino →
      After (ext2WInode ino buf off sz) s.1.fs fun _ u => P u)
    (step : (writeCall cdevsw p fd buf sz s).toOption.map Prod.snd = some t) : P t.1.fs := by
  unfold writeCall at step
  split at step
  case h_1 =>
    cases step
    exact same
  case h_2 f got =>
    cases run : writeFile cdevsw (s.1.files.files f) buf sz (s.1.fs, s.2) with
    | error e =>
      rw [run] at step
      cases step
    | ok r =>
      rw [run] at step
      cases step
      exact writeFile_fs same (fun ino here => writes f ino _ got here) r.1 r.2 run

/-- Buffers and inodes are in order in every state reached. -/
theorem reach_sane {s : Kern × δ} (reach : (ioSystem cdevsw).Reach s) : s.1.fs.Sane := by
  refine reach.invariant (I := fun s => s.1.fs.Sane) (fun s start => Kern.Booted.sane start) ?_
  intro s a t h _ step
  cases a with
  | kern a =>
    obtain ⟨u, moves, rfl⟩ := Option.map_eq_some_iff.1 step
    exact Kern.sane_step h moves
  | read p fd sz =>
    simp only [ioSystem] at step
    split at step
    case isFalse => cases step
    case isTrue =>
      refine readCall_fs (P := Fs.Sane) h ?_ step
      exact fun ino off => (steady_ext2ReadInode s.1.fs ino off sz).mono fun _ _ steady => steady.sane h
  | write p fd buf sz =>
    simp only [ioSystem] at step
    split at step
    case isFalse => cases step
    case isTrue =>
      refine writeCall_fs (P := Fs.Sane) h ?_ step
      exact fun _ ino off _ _ => (steady_ext2WInode s.1.fs ino buf off sz).mono fun _ _ kept => kept.1.sane h

/-- The references of the lookup to the node can be counted. -/
def LookupFits (node : InodeId) (s : Kern) (cwd : InodeId) (path : List Chr) : Prop :=
  (s.fs.irefs node).toNat + (pathLoads AtEnd cwd path s.fs).count node < 2 ^ 32

/-- The calls behind `mknod`: lookups, as long as the references they take to the node can be counted,
reads of any file, and writes to the node. No other node is made. -/
def NodeStep (node : InodeId) (s : Kern × δ) : IoAct → Prop
  | .kern (.tail _) => LookupFits node s.1 0 [SLASH]
  | .kern (.call p (.open path _)) => ∀ cwd, (s.1.files.procs p).cwd = some cwd → LookupFits node s.1 cwd path
  | .kern (.call p (.chdir path)) => ∀ cwd, (s.1.files.procs p).cwd = some cwd → LookupFits node s.1 cwd path
  | .kern (.call p (.exec path _ _)) => ∀ cwd, (s.1.files.procs p).cwd = some cwd → LookupFits node s.1 cwd path
  | .kern (.call _ (.close _)) => True
  | .kern (.call _ (.fork _ _ _)) => True
  | .kern (.call _ (.exit _)) => True
  | .kern (.call _ (.mkdir _)) => False
  | .kern (.call _ (.mknod _ _ _)) => False
  | .read _ _ _ => True
  | .write p fd _ _ => ∀ f ino, (s.1.files.procs p).fget fd = some f → (s.1.files.files f).ino = some ino → ino = node

/-- These calls keep the node. -/
theorem Kern.keeps_step {s t : Kern} {d : δ} {a : KernAct} (h : s.fs.Keeps node mode dev) (fits : NodeStep node (s, d) (.kern a))
    (step : system.step s a = some t) : t.fs.Keeps node mode dev := by
  have rule := keeps_rule node mode dev
  have lookup : ∀ cwd path, LookupFits node s cwd path → After (ext2Path2inode cwd path) s.fs fun _ u => u.Keeps node mode dev :=
    fun cwd path few => (rule.ext2Path2inode s.fs cwd path).mono fun _ _ kept => kept.2 h few
  cases a with
  | tail p =>
    simp only [system] at step
    split at step
    case isFalse => cases step
    case isTrue =>
    unfold Kern.tail at step
    split at step
    case h_1 => exact Option.some.inj step ▸ h
    case h_2 => exact fs_after (lookup 0 [SLASH] fits) step
  | call p c =>
    simp only [system] at step
    split at step
    case isFalse => cases step
    case isTrue =>
    obtain ⟨cwd, here, step⟩ := Option.bind_eq_some_iff.1 step
    cases c with
    | «open» path flags => exact fs_after (lookup cwd path (fits cwd here)) step
    | close fd =>
      cases step
      exact h
    | chdir path => exact fs_after (lookup cwd path (fits cwd here)) step
    | exec path reads image =>
      refine fs_after (P := fun u => u.Keeps node mode dev) ?_ step
      refine (rule_execFile rule ?_ s.fs cwd path reads).mono fun _ _ kept => kept.2 h (fits cwd here)
      exact fun u v => keepsNode_quiet
    | fork kstack pgt copied =>
      cases step
      exact h
    | exit ret =>
      obtain ⟨files, -, rfl⟩ := Option.map_eq_some_iff.1 step
      exact h
    | mkdir path => exact fits.elim
    | mknod path mode dev => exact fits.elim

/-- **In every state behind `mknod`** the node has its type and device. -/
theorem keeps_later {s t : Kern × δ} (made : s.1.fs.Keeps node mode dev)
    (later : ((ioSystem cdevsw).startingAt s).Via (NodeStep node) t) : t.1.fs.Keeps node mode dev := by
  refine later.invariant (I := fun t => t.1.fs.Keeps node mode dev) (fun t start => start ▸ made) ?_
  intro t a u h fits step
  cases a with
  | kern a =>
    obtain ⟨v, moves, rfl⟩ := Option.map_eq_some_iff.1 step
    exact Kern.keeps_step h fits moves
  | read p fd sz =>
    simp only [System.startingAt, ioSystem] at step
    split at step
    case isFalse => cases step
    case isTrue =>
      refine readCall_fs (P := fun v => v.Keeps node mode dev) h ?_ step
      exact fun ino off => (keeps_ext2ReadInode t.1.fs ino off sz).mono fun _ _ kept => kept h
  | write p fd buf sz =>
    simp only [System.startingAt, ioSystem] at step
    split at step
    case isFalse => cases step
    case isTrue =>
      refine writeCall_fs (P := fun v => v.Keeps node mode dev) h ?_ step
      intro f ino off got here
      obtain rfl := fits f ino got here
      exact (keeps_ext2WInode t.1.fs ino buf off sz).mono fun _ _ kept => kept h

/-- The type of a mode, and its place in the table of types. -/
theorem type_index (mode : BitVec 16) : ((mode &&& S_IFMT) >>> 12).toNat = 15 ↔ mode &&& S_IFMT = S_IFMT := by
  have low : ∀ i < 12, S_IFMT.getLsbD i = false := by decide
  have back : ((mode &&& S_IFMT) >>> 12) <<< 12 = mode &&& S_IFMT := by
    apply BitVec.eq_of_getLsbD_eq
    intro i lt
    rw [BitVec.getLsbD_shiftLeft, BitVec.getLsbD_ushiftRight, BitVec.getLsbD_and]
    rcases Nat.lt_or_ge i 12 with inside | above
    · simp [low i inside, Nat.not_le.2 inside]
    · simp [Nat.add_sub_cancel' above, lt, Nat.not_lt.2 above]
  constructor
  · intro last
    have shifted : (mode &&& S_IFMT) >>> 12 = 15#16 := BitVec.eq_of_toNat_eq last
    rw [← back, shifted]
    decide
  · intro all
    rw [all]
    decide

/-- **The table of types** has no place for the last of them. -/
theorem imode2dtype_ok_iff (mode : BitVec 16) : (∃ file_type, imode2dtype mode = .ok file_type) ↔ mode &&& S_IFMT ≠ S_IFMT := by
  rw [ne_eq, ← type_index]
  unfold imode2dtype
  generalize ((mode &&& S_IFMT) >>> 12).toNat = n
  split
  case h_8 => simp
  all_goals simp_all

/-- **What reads and writes of a made node reach.** The table of types is indexed inside its bounds
exactly for a type that is not the last. Behind a `mknod` that has returned the node, however often
it is opened, read and written, a read is carried out exactly when the file is not readable, or the
mode is that of a regular file or a directory, or of a character device whose number is an index of
`cdevsw` where a `read` is registered; and so is a write. -/
theorem node_carried_iff (cdevsw : Fin NCDEV → Cdevsw δ) (mode dev : BitVec 32) :
    ((∃ file_type, imode2dtype (mode.setWidth 16) = .ok file_type) ↔ mode.setWidth 16 &&& S_IFMT ≠ S_IFMT) ∧
    ∀ (s t : Kern × δ) (cwd : InodeId) (path : List Chr) (node : InodeId) (fs : Fs),
      (ioSystem cdevsw).Reach s → s.1.fs.sb.Records → ext2Mknod cwd path mode dev s.1.fs = .ok (some node, fs) →
      fs.record node ≠ 0 → fs.irefs node ≠ 0 →
      ((ioSystem cdevsw).startingAt ({ s.1 with fs := fs }, s.2)).Via (NodeStep node) t →
      mode.setWidth 16 &&& S_IFMT ≠ S_IFMT ∧ ∀ f, (t.1.files.files f).ino = some node →
        (∀ sz, ReadCarried cdevsw node (mode.setWidth 16) dev (t.1.files.files f) sz (t.1.fs, t.2) ↔
          (t.1.files.files f).readable = false ∨ Served (fun m => (cdevsw m).read) (mode.setWidth 16) dev) ∧
        ∀ buf sz, WriteCarried cdevsw node (mode.setWidth 16) dev (t.1.files.files f) buf sz (t.1.fs, t.2) ↔
          (t.1.files.files f).writable = false ∨ Served (fun m => (cdevsw m).write) (mode.setWidth 16) dev := by
  refine ⟨imode2dtype_ok_iff _, ?_⟩
  intro s t cwd path node fs reach records made pos held later
  obtain ⟨-, -, all⟩ := keeps_ext2Mknod s.1.fs cwd path mode dev _ _ made
  obtain ⟨inside, keeps⟩ := all node rfl
  have kept := keeps_later (keeps (reach_sane reach) records pos held) later
  refine ⟨(imode2dtype_ok_iff _).1 inside, fun f here => ?_⟩
  have read := fun sz => readCarried_iff (s := (t.1.fs, t.2)) cdevsw here sz
  have write := fun buf sz => writeCarried_iff (s := (t.1.fs, t.2)) cdevsw here buf sz
  simp only [kept.type, kept.device] at read write
  exact ⟨read, write⟩

end Runs

/-- The machine at boot, with the marked volume. -/
def markedKern : Kern where
  files := Files.boot
  fs := markedFs

/-- A console: what is written goes to its line, and no input comes. -/
def serial : Cdevsw (List (BitVec 8)) where
  read := some fun _ _ => throw .hang
  write := some fun _ buf sz => do
    modify (· ++ (List.range sz.toNat).map buf)
    pure (sz.setWidth 32).toInt

/-- `cdevsw` behind `console_init`. -/
def consoles : Fin NCDEV → Cdevsw (List (BitVec 8)) := registerCdev (fun _ => Cdevsw.null) 0 serial

/-- A node `/x` is made by the first process and opened. -/
structure MadeAndOpened (mode dev flags : BitVec 32) (s : Kern × List (BitVec 8)) (fs : Fs) (t : Kern × List (BitVec 8)) : Prop where
  reach : (ioSystem consoles).Reach s
  records : s.1.fs.sb.Records
  made : ext2Mknod 0 [SLASH, X] mode dev s.1.fs = .ok (some 1, fs)
  pos : fs.record 1 ≠ 0
  held : fs.irefs 1 ≠ 0
  later : ((ioSystem consoles).startingAt ({ s.1 with fs := fs }, s.2)).Via (NodeStep 1) t
  fd : (t.1.files.procs initproc).fget 0 = some 0
  file : (t.1.files.files 0).ino = some 1

/-- What there is to compute for that. -/
def opensMade (mode dev flags : BitVec 32) (test : Kern × List (BitVec 8) → Bool) : Bool :=
  ((ioSystem consoles).step (markedKern, []) (.kern (.tail initproc))).any fun s =>
    decide (s.1.fs.sb.bsize = 1024#32 ∧ 128 ≤ s.1.fs.sb.inode_size.toNat ∧ s.1.fs.sb.inode_size.toNat ≤ 1024 ∧
      (s.1.files.procs initproc).cwd = some 0) &&
    (ext2Mknod 0 [SLASH, X] mode dev s.1.fs).toOption.any fun r =>
      decide (r.1 = some 1 ∧ r.2.record 1 ≠ 0 ∧ r.2.irefs 1 ≠ 0 ∧
        (r.2.irefs 1).toNat + (pathLoads AtEnd 0 [SLASH, X] r.2).count 1 < 2 ^ 32) &&
      ((ioSystem consoles).step ({ s.1 with fs := r.2 }, s.2) (.kern (.call initproc (.open [SLASH, X] flags)))).any fun t =>
        decide ((t.1.files.procs initproc).fget 0 = some 0 ∧ (t.1.files.files 0).ino = some 1) && test t

theorem opensMade_runs {mode dev flags : BitVec 32} {test : Kern × List (BitVec 8) → Bool} (computes : opensMade mode dev flags test = true) :
    ∃ s fs t, MadeAndOpened mode dev flags s fs t ∧ test t = true := by
  obtain ⟨s, tail, here⟩ := (Option.any_eq_true _ _).1 computes
  obtain ⟨volume, here⟩ := Bool.and_eq_true_iff.1 here
  obtain ⟨bsize, least, most, cwd⟩ := of_decide_eq_true volume
  obtain ⟨node, fs, made, here⟩ := ok_of_any here
  obtain ⟨entry, here⟩ := Bool.and_eq_true_iff.1 here
  obtain ⟨rfl, pos, held, few⟩ := of_decide_eq_true entry
  obtain ⟨t, opens, here⟩ := (Option.any_eq_true _ _).1 here
  obtain ⟨file, passes⟩ := Bool.and_eq_true_iff.1 here
  obtain ⟨fd, file⟩ := of_decide_eq_true file
  have booted : (ioSystem consoles).init (markedKern, []) :=
    show markedKern.Booted from ⟨Files.boot_booted, rfl, markedVolume, Fs.boot_mounts (by decide +kernel)⟩
  have fits : NodeStep 1 ({ s.1 with fs := fs }, s.2) (.kern (.call initproc (.open [SLASH, X] flags))) := by
    intro c same
    change (s.1.files.procs initproc).cwd = some c at same
    rw [cwd] at same
    cases same
    exact few
  have later : ((ioSystem consoles).startingAt ({ s.1 with fs := fs }, s.2)).Via (NodeStep 1) t := .step (.init rfl) fits opens
  exact ⟨s, fs, t, ⟨.step (.init booted) trivial tail, ⟨bsize, least, most⟩, made, pos, held, later, fd, file⟩, passes⟩

/-- The console is made as `/x`, opened and written to: the driver does it. -/
theorem node_carried_iff_console : ∃ (t : Kern × List (BitVec 8)), (t.1.files.files 0).writable = true ∧
    ∀ buf sz, WriteCarried consoles 1 S_IFCHR 0 (t.1.files.files 0) buf sz (t.1.fs, t.2) := by
  have computes : opensMade 0x2000#32 0#32 O_WRONLY (fun t => (t.1.files.files 0).writable) = true := by decide +kernel
  obtain ⟨s, fs, t, here, writable⟩ := opensMade_runs computes
  have served : Served (fun m => (consoles m).write) S_IFCHR 0#32 := .inr (.inr ⟨rfl, by decide, rfl⟩)
  obtain ⟨-, all⟩ := (node_carried_iff consoles 0x2000#32 0#32).2 s t 0 [SLASH, X] 1 fs here.reach here.records here.made
    here.pos here.held here.later
  exact ⟨t, writable, fun buf sz => ((all 0 here.file).2 buf sz).2 (.inr served)⟩

/-- A node is made with mode 0, which `mknod` takes, and opened: the first read panics. -/
theorem untyped_node_panics : ∃ s fs t, MadeAndOpened 0#32 0#32 O_RDONLY s fs t ∧
    readCall consoles initproc 0 8 t = .error (.panic "unknown ftype") ∧
    ¬ ReadCarried consoles 1 0 0 (t.1.files.files 0) 8 (t.1.fs, t.2) := by
  have computes : opensMade 0#32 0#32 O_RDONLY (fun t => decide ((t.1.files.files 0).readable = true ∧
      (t.1.fs.itable 1).mode = 0#16 ∧ (t.1.fs.itable 1).major = 0#32)) = true := by decide +kernel
  obtain ⟨s, fs, t, here, passes⟩ := opensMade_runs computes
  obtain ⟨readable, mode, major⟩ := of_decide_eq_true passes
  refine ⟨s, fs, t, here, ?_, ?_⟩
  · have unknown : serverOf (fun m => (consoles m).read) (t.1.fs.itable 1) = .error (.panic "unknown ftype") := by
      unfold serverOf
      rw [mode]
      rfl
    have fails : readFile consoles (t.1.files.files 0) 8 (t.1.fs, t.2) = .error (.panic "unknown ftype") := by
      rw [readFile_goes consoles readable here.file, unknown]
      rfl
    unfold readCall
    rw [here.fd]
    dsimp only
    rw [fails]
    rfl
  · have carried := readCarried_iff (s := (t.1.fs, t.2)) consoles here.file 8
    rw [mode, major, readable] at carried
    intro reads
    obtain never | served := carried.1 reads
    · cases never
    · revert served
      unfold Served
      decide

end Aarch64Os.Kernel
