import Aarch64Os.Base.Ends

/-!
# When a program fails

`Decides e f s P post` says that `f`, started in `s`, returns with `post` where `P` holds and
fails with `e` where it does not. The rules follow the program text and collect the conditions
of the steps; state and errors are parameters.
-/

namespace Base
set_option autoImplicit false

variable {σ ε α β : Type} {e : ε} {s t : σ} {f : StateT σ (Except ε) α} {g : α → StateT σ (Except ε) β} {P Q : Prop}
  {post post' : α → σ → Prop} {end_ : β → σ → Prop}

/-- From `s`, `f` returns with `post` where `P` holds, and fails with `e` elsewhere. -/
structure Decides (e : ε) (f : StateT σ (Except ε) α) (s : σ) (P : Prop) (post : α → σ → Prop) : Prop where
  returns : P → ∃ a t, f s = .ok (a, t) ∧ post a t
  fails : ¬ P → f s = .error e

namespace Decides

/-- It fails just where the condition does not hold. -/
theorem fails_iff (h : Decides e f s P post) : f s = .error e ↔ ¬ P := by
  constructor
  · intro fails holds
    obtain ⟨a, t, run, -⟩ := h.returns holds
    rw [run] at fails
    cases fails
  · exact h.fails

theorem of_run {a : α} (run : f s = .ok (a, t)) (h : post a t) : Decides e f s True post where
  returns _ := ⟨a, t, run, h⟩
  fails never := absurd trivial never

theorem pure {a : α} (h : post a s) : Decides e (Pure.pure a : StateT σ (Except ε) α) s True post := of_run rfl h

theorem throw (e : ε) : Decides e (MonadExcept.throw e : StateT σ (Except ε) α) s False post where
  returns never := never.elim
  fails _ := rfl

theorem congr (h : Decides e f s P post) (same : P ↔ Q) : Decides e f s Q post where
  returns holds := h.returns (same.2 holds)
  fails not := h.fails fun holds => not (same.1 holds)

theorem mono (h : Decides e f s P post) (weaker : ∀ a t, post a t → post' a t) : Decides e f s P post' where
  returns holds := by
    obtain ⟨a, t, run, here⟩ := h.returns holds
    exact ⟨a, t, run, weaker a t here⟩
  fails := h.fails

/-- What else is true behind it. -/
theorem and_after (h : Decides e f s P post) (after : After f s post') : Decides e f s P fun a t => post a t ∧ post' a t where
  returns holds := by
    obtain ⟨a, t, run, here⟩ := h.returns holds
    exact ⟨a, t, run, here, after a t run⟩
  fails := h.fails

/-- A first part that is known. -/
theorem step {a : α} (run : f s = .ok (a, t)) (rest : Decides e (g a) t P end_) : Decides e (f >>= g) s P end_ where
  returns holds := by
    rw [bind_runs run]
    exact rest.returns holds
  fails not := by
    rw [bind_runs run]
    exact rest.fails not

/-- Both parts have to return. -/
theorem bind (first : Decides e f s P post) (second : ∀ a t, post a t → Decides e (g a) t Q end_) :
    Decides e (f >>= g) s (P ∧ Q) end_ where
  returns holds := by
    obtain ⟨a, t, run, here⟩ := first.returns holds.1
    rw [bind_runs run]
    exact (second a t here).returns holds.2
  fails not := by
    by_cases holds : P
    · obtain ⟨a, t, run, here⟩ := first.returns holds
      rw [bind_runs run]
      exact (second a t here).fails fun holds' => not ⟨holds, holds'⟩
    · exact fail_bind.2 (.inl (first.fails holds))

/-- A first part that always returns. -/
theorem behind (first : Decides e f s True post) (second : ∀ a t, post a t → Decides e (g a) t Q end_) :
    Decides e (f >>= g) s Q end_ := (first.bind second).congr (iff_of_eq (true_and Q))

/-- A result nobody looks at. -/
theorem drop (h : Decides e f s P post) : Decides e (f >>= fun _ => Pure.pure ()) s P fun _ _ => True :=
  (h.bind fun _ _ _ => pure trivial).congr (iff_of_eq (and_true P))

end Decides

end Base
