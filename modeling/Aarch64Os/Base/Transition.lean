/-!
# Transition systems and conditioned runs

A system is a set of initial states and a partial step for every label. A run is
conditioned by a predicate on the state before each step and its label:
`Via ok` holds of the states reached by runs whose steps all meet `ok`, and
`Reach` is the case without a condition. Nothing here depends on a particular
system: states and labels are parameters.
-/

namespace Base
set_option autoImplicit false

/-- A labelled transition system. `step s a = none` says that `a` cannot happen in `s`. -/
structure System (σ α : Type) where
  init : σ → Prop
  step : σ → α → Option σ

namespace System
variable {σ α : Type} {M : System σ α} {ok ok' : σ → α → Prop} {I : σ → Prop}

/-- The states reached by runs whose steps all meet `ok`. -/
inductive Via (M : System σ α) (ok : σ → α → Prop) : σ → Prop
  | init {s : σ} : M.init s → Via M ok s
  | step {s t : σ} {a : α} : Via M ok s → ok s a → M.step s a = some t → Via M ok t

/-- The states reached by any run. -/
abbrev Reach (M : System σ α) : σ → Prop := M.Via fun _ _ => True

/-- **The invariant rule.** What holds initially and is preserved by every step
that meets the condition holds of every state reached. -/
theorem Via.invariant (start : ∀ s, M.init s → I s)
    (keep : ∀ s a t, I s → ok s a → M.step s a = some t → I t) {s : σ} (h : M.Via ok s) : I s := by
  induction h with
  | init hi => exact start _ hi
  | step _ hok hs ih => exact keep _ _ _ ih hok hs

/-- A weaker condition reaches more states. -/
theorem Via.mono (weaker : ∀ s a, ok s a → ok' s a) {s : σ} (h : M.Via ok s) : M.Via ok' s := by
  induction h with
  | init hi => exact .init hi
  | step _ hok hs ih => exact .step ih (weaker _ _ hok) hs

/-- A conditioned run is a run. -/
theorem Via.reach {s : σ} (h : M.Via ok s) : M.Reach s := h.mono fun _ _ _ => trivial

/-- Run a list of labels. -/
def run (M : System σ α) (s : σ) : List α → Option σ
  | [] => some s
  | a :: as => (M.step s a).bind fun t => M.run t as

/-- A run whose first step is known. -/
theorem run_cons {s u : σ} {a : α} (h : M.step s a = some u) (as : List α) : M.run s (a :: as) = M.run u as := by
  simp only [run, h, Option.bind_some]

/-- One list of labels after another. -/
theorem run_append {s t : σ} {as : List α} (h : M.run s as = some t) (bs : List α) : M.run s (as ++ bs) = M.run t bs := by
  induction as generalizing s with
  | nil =>
    cases h
    rfl
  | cons a as ih =>
    obtain ⟨u, step, rest⟩ := Option.bind_eq_some_iff.1 h
    rw [List.cons_append, run_cons step, ih rest]

/-- What a list of labels leads to, when these labels meet the condition in any state. -/
theorem Via.run_of {s t : σ} {as : List α} (h : M.Via ok s) (free : ∀ a ∈ as, ∀ u, ok u a) (hr : M.run s as = some t) :
    M.Via ok t := by
  induction as generalizing s with
  | nil => cases hr; exact h
  | cons a as ih =>
    obtain ⟨u, hu, hr⟩ := Option.bind_eq_some_iff.1 hr
    exact ih (.step h (free a List.mem_cons_self s) hu) (fun a mem => free a (List.mem_cons_of_mem _ mem)) hr

/-- What is seen of a run of labels, step by step. -/
def trace {β : Type} (M : System σ α) (f : σ → α → Option β) : σ → List α → List β
  | _, [] => []
  | s, a :: as => (f s a).toList ++ (M.step s a).elim [] fun t => M.trace f t as

theorem trace_cons {β : Type} {f : σ → α → Option β} {s u : σ} {a : α} (h : M.step s a = some u) (as : List α) :
    M.trace f s (a :: as) = (f s a).toList ++ M.trace f u as := by
  rw [trace, h]
  rfl

/-- Run a list of labels, as long as these meet the condition. -/
def runIf (M : System σ α) (ok : σ → α → Prop) [∀ s a, Decidable (ok s a)] (s : σ) : List α → Option σ
  | [] => some s
  | a :: as => if ok s a then (M.step s a).bind fun t => M.runIf ok t as else none

/-- What this leads to. -/
theorem Via.runIf [∀ s a, Decidable (ok s a)] {s t : σ} {as : List α} (h : M.Via ok s) (hr : M.runIf ok s as = some t) : M.Via ok t := by
  induction as generalizing s with
  | nil =>
    cases hr
    exact h
  | cons a as ih =>
    rw [System.runIf] at hr
    split at hr
    · rename_i meets
      obtain ⟨u, step, rest⟩ := Option.bind_eq_some_iff.1 hr
      exact ih (.step h meets step) rest
    · cases hr

/-- What a list of labels leads to from a reached state is reached. -/
theorem Via.run {s t : σ} {as : List α} (h : M.Reach s) (hr : M.run s as = some t) : M.Reach t :=
  h.run_of (fun _ _ _ => trivial) hr

/-- The same system, started in `s`. -/
def startingAt (M : System σ α) (s : σ) : System σ α where
  init t := t = s
  step := M.step

/-- A run of one step. -/
theorem Via.one {s t : σ} {a : α} (meets : ok s a) (h : M.step s a = some t) : (M.startingAt s).Via ok t :=
  .step (.init rfl) meets h

/-- A run from a reached state continues one. -/
theorem Via.continues {s t : σ} (h : M.Reach s) (run : (M.startingAt s).Via ok t) : M.Reach t := by
  induction run with
  | init eq => exact eq ▸ h
  | step _ _ step ih => exact .step ih trivial step

end System

end Base
