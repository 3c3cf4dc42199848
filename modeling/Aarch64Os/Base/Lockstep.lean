import Aarch64Os.Base.Ends

/-!
# Two programs in lockstep

One program runs on the states of a machine and another on those of a model of it. `Lockstep f s g t
post` says that `f` from `s` and `g` from `t` both return, with `post` of their results and states,
or both fail, with the same error. The rules follow the text of both programs at once, and carry what
is known of the model over to the machine. States, results and errors are parameters.
-/

namespace Base
set_option autoImplicit false

variable {σ τ ε α β γ δ : Type} {s s' : σ} {t t' : τ} {f : StateT σ (Except ε) α} {g : StateT τ (Except ε) β}
  {f' : α → StateT σ (Except ε) γ} {g' : β → StateT τ (Except ε) δ}

/-- They fail alike, and when they return it is with `post`. -/
def Lockstep (f : StateT σ (Except ε) α) (s : σ) (g : StateT τ (Except ε) β) (t : τ) (post : α → σ → β → τ → Prop) : Prop :=
  (∀ e, f s = .error e ↔ g t = .error e) ∧ ∀ a s' b t', f s = .ok (a, s') → g t = .ok (b, t') → post a s' b t'

namespace Lockstep
variable {post post' : α → σ → β → τ → Prop} {end_ : γ → σ → δ → τ → Prop}

theorem pure {a : α} {b : β} (h : post a s b t) :
    Lockstep (Pure.pure a : StateT σ (Except ε) α) s (Pure.pure b : StateT τ (Except ε) β) t post := by
  constructor
  · intro e
    exact iff_of_false (fun fails => by cases fails) (fun fails => by cases fails)
  · intro a' s' b' t' run run'
    cases run
    cases run'
    exact h

theorem throw (e : ε) : Lockstep (MonadExcept.throw e : StateT σ (Except ε) α) s (MonadExcept.throw e : StateT τ (Except ε) β) t post := by
  constructor
  · intro e'
    constructor
    · intro fails
      cases fails
      rfl
    · intro fails
      cases fails
      rfl
  · intro a s' b t' run
    cases run

theorem mono (h : Lockstep f s g t post) (weaker : ∀ a s' b t', post a s' b t' → post' a s' b t') : Lockstep f s g t post' :=
  ⟨h.1, fun a s' b t' run run' => weaker a s' b t' (h.2 a s' b t' run run')⟩

/-- When one of the two returns, so does the other. -/
theorem returns (h : Lockstep f s g t post) {b : β} (run : g t = .ok (b, t')) : ∃ a s', f s = .ok (a, s') ∧ post a s' b t' := by
  cases machine : f s with
  | error e =>
    rw [(h.1 e).1 machine] at run
    cases run
  | ok r => exact ⟨r.1, r.2, rfl, h.2 r.1 r.2 b t' machine run⟩

theorem returned (h : Lockstep f s g t post) {a : α} (run : f s = .ok (a, s')) : ∃ b t', g t = .ok (b, t') ∧ post a s' b t' := by
  cases model : g t with
  | error e =>
    rw [(h.1 e).2 model] at run
    cases run
  | ok r => exact ⟨r.1, r.2, rfl, h.2 a s' r.1 r.2 run model⟩

theorem bind (first : Lockstep f s g t post) (second : ∀ a s' b t', post a s' b t' → Lockstep (f' a) s' (g' b) t' end_) :
    Lockstep (f >>= f') s (g >>= g') t end_ := by
  constructor
  · intro e
    rw [fail_bind, fail_bind]
    constructor
    · rintro (fails | ⟨a, s', run, fails⟩)
      · exact .inl ((first.1 e).1 fails)
      · obtain ⟨b, t', run', mid⟩ := first.returned run
        exact .inr ⟨b, t', run', ((second a s' b t' mid).1 e).1 fails⟩
    · rintro (fails | ⟨b, t', run, fails⟩)
      · exact .inl ((first.1 e).2 fails)
      · obtain ⟨a, s', run', mid⟩ := first.returns run
        exact .inr ⟨a, s', run', ((second a s' b t' mid).1 e).2 fails⟩
  · intro c s' d t' run run'
    obtain ⟨a, u, one, two⟩ := run_bind.1 run
    obtain ⟨b, v, one', two'⟩ := run_bind.1 run'
    exact (second a u b v (first.2 a u b v one one')).2 c s' d t' two two'

/-- Both are known. -/
theorem of_runs {a : α} {b : β} (run : f s = .ok (a, s')) (run' : g t = .ok (b, t')) (here : post a s' b t') : Lockstep f s g t post := by
  rw [Lockstep, run, run']
  exact pure here

/-- A step of the machine alone, -/
theorem machine {a : α} (run : f s = .ok (a, s')) {g : StateT τ (Except ε) δ} (rest : Lockstep (f' a) s' g t end_) :
    Lockstep (f >>= f') s g t end_ := by
  rw [Lockstep, bind_runs run]
  exact rest

/-- and one of the model. -/
theorem model {b : β} (run : g t = .ok (b, t')) {f : StateT σ (Except ε) γ} (rest : Lockstep f s (g' b) t' end_) :
    Lockstep f s (g >>= g') t end_ := by
  rw [Lockstep, bind_runs run]
  exact rest

/-- Two loops over one list, with an invariant of what is left of it. -/
theorem forM {ι : Type} {f : ι → StateT σ (Except ε) Unit} {g : ι → StateT τ (Except ε) Unit} (inv : List ι → σ → τ → Prop)
    (each : ∀ i is s t, inv (i :: is) s t → Lockstep (f i) s (g i) t fun _ s' _ t' => inv is s' t') (is : List ι) :
    ∀ {s : σ} {t : τ}, inv is s t → Lockstep (is.forM f) s (is.forM g) t fun _ s' _ t' => inv [] s' t' := by
  induction is with
  | nil => exact fun here => pure here
  | cons i is ih =>
    intro s t here
    rw [List.forM, List.forM]
    exact (each i is s t here).bind fun _ _ _ _ next => ih next

/-- What is known of the model holds of the machine too. -/
theorem after {known : β → τ → Prop} (h : Lockstep f s g t post) (model : After g t known) :
    Lockstep f s g t fun a s' b t' => post a s' b t' ∧ known b t' :=
  ⟨h.1, fun a s' b t' run run' => ⟨h.2 a s' b t' run run', model b t' run'⟩⟩

/-- So the machine ends as the model does. -/
theorem ends {bad : ε → Prop} {known : β → τ → Prop} (h : Lockstep f s g t post) (model : Ends bad g t known) :
    Ends bad f s fun a s' => ∃ b t', known b t' ∧ post a s' b t' := by
  constructor
  · intro a s' run
    obtain ⟨b, t', run', here⟩ := h.returned run
    exact ⟨b, t', model.1 b t' run', here⟩
  · intro e fails
    exact model.2 e ((h.1 e).1 fails)

end Lockstep

end Base
