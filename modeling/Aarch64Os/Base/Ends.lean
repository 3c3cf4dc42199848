import Mathlib.Init

/-!
# How programs end

A program runs on a state and may fail. `After f s post` says that `f`, started in `s`, returns
with `post` if it returns, and `Ends bad f s post` that otherwise it fails with an error that is
not bad. The rules follow the program text; state and errors are parameters.
-/

namespace Base
set_option autoImplicit false

variable {σ ε α β : Type} {s t : σ} {f : StateT σ (Except ε) α} {g : α → StateT σ (Except ε) β}

/-- A sequence returns when both its parts do. -/
theorem run_bind {b : β} : (f >>= g) s = .ok (b, t) ↔ ∃ a u, f s = .ok (a, u) ∧ g a u = .ok (b, t) := by
  show (f s).bind (fun p => g p.1 p.2) = _ ↔ _
  cases f s with
  | error e =>
    refine ⟨fun run => ?_, ?_⟩
    · cases run
    · rintro ⟨a, u, run, -⟩
      cases run
  | ok p =>
    refine ⟨fun run => ⟨p.1, p.2, rfl, run⟩, ?_⟩
    rintro ⟨a, u, run, run'⟩
    cases run
    exact run'

/-- Behind a first part that is known. -/
theorem bind_runs {a : α} (run : f s = .ok (a, t)) : (f >>= g) s = g a t := by
  show (f s).bind (fun p => g p.1 p.2) = g a t
  rw [run]
  rfl

/-- It fails when its first part does, or its second behind the first. -/
theorem fail_bind {e : ε} : (f >>= g) s = .error e ↔ f s = .error e ∨ ∃ a u, f s = .ok (a, u) ∧ g a u = .error e := by
  show (f s).bind (fun p => g p.1 p.2) = _ ↔ _
  cases f s with
  | error e' => exact ⟨fun fails => .inl (by cases fails; rfl), fun fails => fails.elim (fun same => by cases same; rfl) nofun⟩
  | ok p =>
    refine ⟨fun fails => .inr ⟨p.1, p.2, rfl, fails⟩, ?_⟩
    rintro (none | ⟨a, u, run, fails⟩)
    · cases none
    · cases run
      exact fails

/-- A run that passes a test. -/
theorem ok_of_any {x : Except ε (α × σ)} {test : α × σ → Bool} (passes : x.toOption.any test = true) :
    ∃ a t, x = .ok (a, t) ∧ test (a, t) = true := by
  obtain ⟨r, some, here⟩ := (Option.any_eq_true _ _).1 passes
  cases x with
  | error e => cases some
  | ok r' =>
    cases some
    exact ⟨r.1, r.2, rfl, here⟩

/-- The state is read. -/
theorem get_runs (s : σ) : (get : StateT σ (Except ε) σ) s = .ok (s, s) := rfl

/-- The state is set. -/
theorem set_runs (s u : σ) : (set u : StateT σ (Except ε) PUnit) s = .ok (⟨⟩, u) := rfl

/-- The state is changed. -/
theorem modify_runs (s : σ) (h : σ → σ) : (modify h : StateT σ (Except ε) PUnit) s = .ok (⟨⟩, h s) := rfl

/-- What holds of the result and the state when `f` returns. -/
def After (f : StateT σ (Except ε) α) (s : σ) (post : α → σ → Prop) : Prop := ∀ a t, f s = .ok (a, t) → post a t

namespace After
variable {post post' : α → σ → Prop} {end_ : β → σ → Prop}

/-- A program runs to one end. -/
theorem iff_of_run {a : α} (run : f s = .ok (a, t)) : After f s post ↔ post a t := by
  refine ⟨fun after => after a t run, fun here b u again => ?_⟩
  rw [run] at again
  cases again
  exact here

theorem pure {a : α} (h : post a s) : After (Pure.pure a : StateT σ (Except ε) α) s post := by
  intro b t run
  cases run
  exact h

theorem throw (e : ε) : After (MonadExcept.throw e : StateT σ (Except ε) α) s post := by
  intro b t run
  cases run

/-- A value that may be missing. -/
theorem lift {x : Except ε α} (h : ∀ a, x = .ok a → post a s) : After (liftM x : StateT σ (Except ε) α) s post := by
  intro b t run
  cases x with
  | error e => cases run
  | ok a =>
    cases run
    exact h _ rfl

theorem mono (h : After f s post) (weaker : ∀ a t, post a t → post' a t) : After f s post' :=
  fun a t run => weaker a t (h a t run)

theorem bind (first : After f s post) (second : ∀ a t, post a t → After (g a) t end_) : After (f >>= g) s end_ := by
  intro b t run
  obtain ⟨a, u, run, run'⟩ := run_bind.1 run
  exact second a u (first a u run) b t run'

/-- Two things that hold. -/
theorem and (left : After f s post) (right : After f s post') : After f s fun a t => post a t ∧ post' a t :=
  fun a t run => ⟨left a t run, right a t run⟩

/-- Whatever the first part does. -/
theorem behind (second : ∀ a t, After (g a) t end_) : After (f >>= g) s end_ := by
  intro b t run
  obtain ⟨a, u, -, run'⟩ := run_bind.1 run
  exact second a u b t run'

/-- A first part that is known. -/
theorem step {a : α} (run : f s = .ok (a, t)) (rest : After (g a) t end_) : After (f >>= g) s end_ := by
  intro b u run'
  obtain ⟨a', t', again, run'⟩ := run_bind.1 run'
  rw [run] at again
  cases again
  exact rest b u run'

end After

/-- From `s`, `f` returns with `post`, or fails, but not badly. -/
def Ends (bad : ε → Prop) (f : StateT σ (Except ε) α) (s : σ) (post : α → σ → Prop) : Prop :=
  After f s post ∧ ∀ e, f s = .error e → ¬ bad e

namespace Ends
variable {bad : ε → Prop} {post post' : α → σ → Prop} {end_ : β → σ → Prop}

theorem pure {a : α} (h : post a s) : Ends bad (Pure.pure a : StateT σ (Except ε) α) s post := by
  constructor
  · intro b t run
    cases run
    exact h
  · intro e fails
    cases fails

theorem throw {e : ε} (ok : ¬ bad e) : Ends bad (MonadExcept.throw e : StateT σ (Except ε) α) s post := by
  constructor
  · intro b t run
    cases run
  · intro e' fails
    cases fails
    exact ok

/-- Programs that end in the same way. -/
theorem of_eq {h : StateT σ (Except ε) α} (same : f s = h t) (ends : Ends bad h t post) : Ends bad f s post :=
  ⟨fun a u run => ends.1 a u (same.symm.trans run), fun e fails => ends.2 e (same.symm.trans fails)⟩

/-- One end, and what else is true after it. -/
theorem and_after (ends : Ends bad f s post) (after : After f s post') : Ends bad f s fun a t => post a t ∧ post' a t :=
  ⟨fun a t run => ⟨ends.1 a t run, after a t run⟩, ends.2⟩

theorem mono (h : Ends bad f s post) (weaker : ∀ a t, post a t → post' a t) : Ends bad f s post' :=
  ⟨fun a t run => weaker a t (h.1 a t run), h.2⟩

theorem bind (first : Ends bad f s post) (second : ∀ a t, post a t → Ends bad (g a) t end_) : Ends bad (f >>= g) s end_ := by
  constructor
  · exact After.bind first.1 fun a t mid => (second a t mid).1
  · intro e fails
    rcases fail_bind.1 fails with fails | ⟨a, u, run, fails⟩
    · exact first.2 e fails
    · exact (second a u (first.1 a u run)).2 e fails

/-- A first part that is known. -/
theorem step {a : α} (run : f s = .ok (a, t)) (rest : Ends bad (g a) t end_) : Ends bad (f >>= g) s end_ := by
  refine ⟨After.step run rest.1, fun e fails => ?_⟩
  rcases fail_bind.1 fails with fails | ⟨a', u, again, fails⟩
  · rw [run] at fails
    cases fails
  · rw [run] at again
    cases again
    exact rest.2 e fails

end Ends

end Base
