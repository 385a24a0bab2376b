import IdlFrontend.Proofs.Session.Run

/-!
# Two sessions side by side

Two computations are coupled if they have the same effects and yield results that are
related. Two sessions that read almost the same are compared step by step in this way:
both fail with the same error, or both go on in states that are related.

Results:

* `Coupled.eq`: results that are coupled by equality are equal, effects included.
* `Parallel.bind`, `parallel_foldlM`: steps one after the other.
-/

namespace IdlFrontend

/-! ## Coupled computations -/

section Coupled

variable {m : Type → Type} [Monad m] {α β γ δ : Type}

/-- The two computations have the same effects, and whenever they yield results, these are
    related. -/
def Coupled (R : α → β → Prop) (x : m α) (y : m β) : Prop :=
  ∃ z : m {r : α × β // R r.1 r.2}, (fun r => r.1.1) <$> z = x ∧ (fun r => r.1.2) <$> z = y

theorem Coupled.eq {x y : m α} (h : Coupled (· = ·) x y) : x = y := by
  obtain ⟨z, rfl, rfl⟩ := h
  exact congrArg (· <$> z) (funext fun r => r.2)

variable [LawfulMonad m]

theorem coupled_pure {R : α → β → Prop} {a : α} {b : β} (h : R a b) :
    Coupled R (pure a : m α) (pure b) :=
  ⟨pure ⟨(a, b), h⟩, map_pure _ _, map_pure _ _⟩

theorem coupled_refl {R : α → α → Prop} (h : ∀ a, R a a) (x : m α) : Coupled R x x := by
  refine ⟨(fun a => ⟨(a, a), h a⟩) <$> x, ?_, ?_⟩ <;>
  · rw [← comp_map]
    exact id_map x

theorem Coupled.bind {R : α → β → Prop} {S : γ → δ → Prop} {x : m α} {y : m β} {f : α → m γ}
    {g : β → m δ} (h : Coupled R x y) (hfg : ∀ a b, R a b → Coupled S (f a) (g b)) :
    Coupled S (x >>= f) (y >>= g) := by
  obtain ⟨z, rfl, rfl⟩ := h
  choose w hf hg using hfg
  refine ⟨z >>= fun r => w r.1.1 r.1.2 r.2, ?_, ?_⟩
  · rw [map_bind, bind_map_left]
    exact bind_congr fun r => hf r.1.1 r.1.2 r.2
  · rw [map_bind, bind_map_left]
    exact bind_congr fun r => hg r.1.1 r.1.2 r.2

end Coupled

namespace Session

variable {m : Type → Type} [Monad m] {α β γ δ : Type}

/-! ## Steps in parallel -/

/-- Two steps end alike: both fail with the same error, or both have values that are
    related, together with the sessions behind them. -/
inductive EndAlike (Q : α → Session → β → Session → Prop) :
    Except PreprocessError α × Session → Except PreprocessError β × Session → Prop
  | ok {a : α} {s : Session} {b : β} {t : Session} (h : Q a s b t) :
      EndAlike Q (.ok a, s) (.ok b, t)
  | error (e : PreprocessError) (s t : Session) : EndAlike Q (.error e, s) (.error e, t)

/-- A step from the session `s` and another one from `t` have the same effects and end alike. -/
def Parallel (Q : α → Session → β → Session → Prop) (x : PreprocessM m α) (s : Session)
    (y : PreprocessM m β) (t : Session) : Prop :=
  Coupled (EndAlike Q) (exec x s) (exec y t)

section Rules

variable [LawfulMonad m] {Q : α → Session → β → Session → Prop}
    {R : γ → Session → δ → Session → Prop}
  {s t : Session}

theorem parallel_pure {a : α} {b : β} (h : Q a s b t) :
    Parallel Q (pure a : PreprocessM m α) s (pure b) t :=
  coupled_pure (.ok h)

theorem parallel_throw (e : PreprocessError) :
    Parallel Q (throw e : PreprocessM m α) s (throw e) t :=
  coupled_pure (.error e s t)

theorem Parallel.bind {x : PreprocessM m α} {y : PreprocessM m β} {f : α → PreprocessM m γ}
    {g : β → PreprocessM m δ} (h : Parallel Q x s y t)
    (hfg : ∀ a s b t, Q a s b t → Parallel R (f a) s (g b) t) :
    Parallel R (x >>= f) s (y >>= g) t := by
  rw [Parallel, exec_bind, exec_bind]
  refine Coupled.bind h fun r r' hr => ?_
  cases hr with
  | ok h => exact hfg _ _ _ _ h
  | error e s t => exact coupled_pure (.error e s t)

theorem Parallel.mono {Q' : α → Session → β → Session → Prop} {x : PreprocessM m α}
    {y : PreprocessM m β} (h : Parallel Q x s y t) (hQ : ∀ a s b t, Q a s b t → Q' a s b t) :
    Parallel Q' x s y t := by
  have hbind := h.bind (R := Q') (f := pure) (g := pure) fun a s b t hab =>
    parallel_pure (hQ a s b t hab)
  rwa [bind_pure, bind_pure] at hbind

theorem parallel_refl {Q : α → Session → α → Session → Prop} (h : ∀ a s, Q a s a s)
    (x : PreprocessM m α) (s : Session) : Parallel Q x s x s := by
  refine coupled_refl (fun r => ?_) _
  obtain ⟨e | a, t⟩ := r
  · exact .error e t t
  · exact .ok (h a t)

theorem parallel_get_bind {f : Session → PreprocessM m γ} {g : Session → PreprocessM m δ}
    (h : Parallel R (f s) s (g t) t) : Parallel R (get >>= f) s (get >>= g) t := by
  rw [Parallel, exec_bind_ok (exec_get s), exec_bind_ok (exec_get t)]
  exact h

theorem parallel_modify {f g : Session → Session} {Q : PUnit → Session → PUnit → Session → Prop}
    (h : Q ⟨⟩ (f s) ⟨⟩ (g t)) : Parallel Q (modify f : PreprocessM m PUnit) s (modify g) t := by
  rw [Parallel, exec_modify, exec_modify]
  exact coupled_pure (.ok h)

/-- Results that are computed without a session: the same error, or values for which the
    rest goes on in parallel. -/
theorem parallel_ofExcept_bind {r : Except PreprocessError α} {r' : Except PreprocessError β}
    {f : α → PreprocessM m γ} {g : β → PreprocessM m δ}
    (herror : ∀ e, r = .error e ↔ r' = .error e)
    (hok : ∀ a b, r = .ok a → r' = .ok b → Parallel R (f a) s (g b) t) :
    Parallel R (MonadExcept.ofExcept r >>= f) s (MonadExcept.ofExcept r' >>= g) t := by
  cases r with
  | error e =>
    rw [(herror e).1 rfl, Parallel, exec_bind_error (exec_ofExcept _ s),
      exec_bind_error (exec_ofExcept _ t)]
    exact coupled_pure (.error e s t)
  | ok a =>
    cases r' with
    | error e => cases (herror e).2 rfl
    | ok b =>
      rw [Parallel, exec_bind_ok (exec_ofExcept _ s), exec_bind_ok (exec_ofExcept _ t)]
      exact hok a b rfl rfl

/-- An effect from outside of the sessions happens in both of them. -/
theorem parallel_lift_bind {x : m α} {f : α → PreprocessM m γ} {g : α → PreprocessM m δ}
    (h : ∀ a, Parallel R (f a) s (g a) t) :
    Parallel R (liftM x >>= f) s (liftM x >>= g) t := by
  have hlift : Parallel (fun a s' b t' => a = b ∧ s' = s ∧ t' = t) (liftM x : PreprocessM m α) s
      (liftM x) t := by
    rw [Parallel, exec_lift, exec_lift]
    refine (coupled_refl (R := (· = ·)) (fun _ => rfl) x).bind ?_
    rintro a _ rfl
    exact coupled_pure (.ok ⟨rfl, rfl, rfl⟩)
  refine hlift.bind ?_
  rintro a _ _ _ ⟨rfl, rfl, rfl⟩
  exact h a

/-- Two loops over a list, in states that every step keeps related. -/
theorem parallel_foldlM {f : β → α → PreprocessM m β} {g : γ → α → PreprocessM m γ}
    {Q : β → Session → γ → Session → Prop}
    (hfg : ∀ a b s c t, Q b s c t → Parallel Q (f b a) s (g c a) t) (as : List α) {b : β} {c : γ}
    (h : Q b s c t) : Parallel Q (as.foldlM f b) s (as.foldlM g c) t := by
  induction as generalizing b s c t with
  | nil => exact parallel_pure h
  | cons a as ih =>
    rw [List.foldlM_cons, List.foldlM_cons]
    exact (hfg a b s c t h).bind fun b s c t h => ih h

end Rules

end Session

end IdlFrontend
