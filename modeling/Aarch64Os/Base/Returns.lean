import Aarch64Os.Base.Ends

/-!
# Programs that return

`Returns f s post` says that `f`, started in `s`, does return, and with `post`. The rules follow the
program text, as those for `After` do, which promise nothing where a program fails; the two are
put together where one knows that it returns and the other with what.
-/

namespace Base
set_option autoImplicit false

variable {σ ε α β : Type} {s t : σ} {f : StateT σ (Except ε) α} {g : α → StateT σ (Except ε) β}

/-- `f` returns from `s`, with `post`. -/
def Returns (f : StateT σ (Except ε) α) (s : σ) (post : α → σ → Prop) : Prop := ∃ a t, f s = .ok (a, t) ∧ post a t

namespace Returns
variable {post post' : α → σ → Prop} {end_ : β → σ → Prop}

theorem pure {a : α} (h : post a s) : Returns (Pure.pure a : StateT σ (Except ε) α) s post := ⟨a, s, rfl, h⟩

theorem mono (h : Returns f s post) (weaker : ∀ a t, post a t → post' a t) : Returns f s post' := by
  obtain ⟨a, t, run, here⟩ := h
  exact ⟨a, t, run, weaker a t here⟩

theorem bind (first : Returns f s post) (second : ∀ a t, post a t → Returns (g a) t end_) : Returns (f >>= g) s end_ := by
  obtain ⟨a, t, run, here⟩ := first
  obtain ⟨b, u, run', there⟩ := second a t here
  exact ⟨b, u, (bind_runs run).trans run', there⟩

/-- A first part that is known. -/
theorem step {a : α} (run : f s = .ok (a, t)) (rest : Returns (g a) t end_) : Returns (f >>= g) s end_ := by
  obtain ⟨b, u, run', there⟩ := rest
  exact ⟨b, u, (bind_runs run).trans run', there⟩

/-- Every return is with what holds of each. -/
theorem and_after (h : Returns f s post) (after : After f s post') : Returns f s fun a t => post a t ∧ post' a t := by
  obtain ⟨a, t, run, here⟩ := h
  exact ⟨a, t, run, here, after a t run⟩

/-- A program that returns does so with what holds after it. -/
theorem after (h : Returns f s post) : After f s post := by
  obtain ⟨a, t, run, here⟩ := h
  exact (After.iff_of_run run).2 here

theorem not_error (h : Returns f s post) (e : ε) : f s ≠ .error e := by
  obtain ⟨a, t, run, -⟩ := h
  rw [run]
  intro never
  cases never

end Returns

end Base
