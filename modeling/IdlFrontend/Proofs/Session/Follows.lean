import IdlFrontend.Proofs.Session.AtOnce

/-!
# Sessions that succeed

One session follows another if it succeeds whenever the other one does, in a state that is
related. Unlike sessions side by side they need not have the same effects, and nothing is said
about a session that fails or gives up.

Results:

* `succeeds_bind_iff`: a computation succeeds if its steps do, one after the other.
* `Follows.bind`: sessions that follow each other, step by step.
* `succeeds_readWatched_iff`: what it takes to read a line without macros with parameters.
-/

namespace IdlFrontend.Session

variable {α β γ δ : Type}

/-- The step comes to a value and leaves a session behind. It neither fails nor gives up. -/
def Succeeds (x : PreprocessM (OptionT Id) α) (s : Session) (a : α) (s' : Session) : Prop :=
  exec x s = pure (.ok a, s')

variable {x : PreprocessM (OptionT Id) α} {y : PreprocessM (OptionT Id) β}
  {f : α → PreprocessM (OptionT Id) γ} {g : β → PreprocessM (OptionT Id) δ}
  {s t s' : Session} {a : α}

theorem Succeeds.bind {c : γ} {u : Session} (hx : Succeeds x s a s') (hf : Succeeds (f a) s' c u) :
    Succeeds (x >>= f) s c u := (exec_bind_ok hx).trans hf

theorem succeeds_bind_iff {c : γ} {u : Session} :
    Succeeds (x >>= f) s c u ↔ ∃ a s', Succeeds x s a s' ∧ Succeeds (f a) s' c u := by
  refine ⟨fun h => ?_, fun ⟨a, s', hx, hf⟩ => hx.bind hf⟩
  rw [Succeeds, exec_bind] at h
  rcases hx : (exec x s).run with _ | ⟨e | a, s'⟩
  · have hgave : exec x s = failure := hx
    rw [hgave, failure_bind] at h
    cases h
  · have hfails : exec x s = pure (.error e, s') := hx
    rw [hfails, pure_bind] at h
    cases h
  · have hok : exec x s = pure (.ok a, s') := hx
    rw [hok, pure_bind] at h
    exact ⟨a, s', hok, h⟩

theorem Succeeds.eq {b : α} {u : Session} (h : Succeeds x s a s') (h' : Succeeds x s b u) :
    a = b ∧ s' = u := by
  have heq := Option.some.inj (h.symm.trans h')
  exact ⟨Except.ok.inj (congrArg Prod.fst heq), congrArg Prod.snd heq⟩

/-- The step `y` from `t` succeeds if `x` does from `s`, and what they come to is related. -/
def Follows (Q : α → Session → β → Session → Prop) (x : PreprocessM (OptionT Id) α) (s : Session)
    (y : PreprocessM (OptionT Id) β) (t : Session) : Prop :=
  ∀ a s', Succeeds x s a s' → ∃ b t', Succeeds y t b t' ∧ Q a s' b t'

variable {Q : α → Session → β → Session → Prop} {R : γ → Session → δ → Session → Prop}

theorem Follows.mono {Q' : α → Session → β → Session → Prop} (h : Follows Q x s y t)
    (hQ : ∀ a s b t, Q a s b t → Q' a s b t) : Follows Q' x s y t := by
  intro a s' hx
  obtain ⟨b, t', hy, hab⟩ := h a s' hx
  exact ⟨b, t', hy, hQ _ _ _ _ hab⟩

theorem Follows.bind (h : Follows Q x s y t)
    (hfg : ∀ a s b t, Q a s b t → Follows R (f a) s (g b) t) :
    Follows R (x >>= f) s (y >>= g) t := by
  intro c u hc
  obtain ⟨a, s', hx, hf⟩ := succeeds_bind_iff.1 hc
  obtain ⟨b, t', hy, hab⟩ := h a s' hx
  obtain ⟨d, v, hg, hcd⟩ := hfg a s' b t' hab c u hf
  exact ⟨d, v, hy.bind hg, hcd⟩

theorem follows_pure {b : β} (h : Q a s b t) : Follows Q (pure a) s (pure b) t := by
  intro a' s' hx
  obtain ⟨rfl, rfl⟩ := Succeeds.eq (exec_pure a s) hx
  exact ⟨b, t, exec_pure b t, h⟩

/-- A step that fails is followed by any other. -/
theorem follows_throw (e : PreprocessError) : Follows Q (throw e) s y t := by
  intro a s' hx
  cases hx

/-- Steps that succeed. -/
theorem follows_of_succeeds {b : β} {t' : Session} (hx : Succeeds x s a s') (hy : Succeeds y t b t')
    (h : Q a s' b t') : Follows Q x s y t := by
  intro a' s'' hx'
  obtain ⟨rfl, rfl⟩ := hx.eq hx'
  exact ⟨b, t', hy, h⟩

theorem follows_get_bind {f : Session → PreprocessM (OptionT Id) γ}
    {g : Session → PreprocessM (OptionT Id) δ} (h : Follows R (f s) s (g t) t) :
    Follows R (get >>= f) s (get >>= g) t :=
  Follows.bind (Q := fun a s' b t' => a = s ∧ s' = s ∧ b = t ∧ t' = t)
    (follows_of_succeeds (exec_get s) (exec_get t) ⟨rfl, rfl, rfl, rfl⟩)
    (by rintro _ _ _ _ ⟨rfl, rfl, rfl, rfl⟩; exact h)

theorem follows_modify {f g : Session → Session} {Q : PUnit → Session → PUnit → Session → Prop}
    (h : Q ⟨⟩ (f s) ⟨⟩ (g t)) : Follows Q (modify f) s (modify g) t :=
  follows_of_succeeds (exec_modify f s) (exec_modify g t) h

/-- Results that are computed without a session. -/
theorem follows_ofExcept_bind {r : Except PreprocessError α} {r' : Except PreprocessError β}
    (h : ∀ a, r = .ok a → ∃ b, r' = .ok b ∧ Follows R (f a) s (g b) t) :
    Follows R (MonadExcept.ofExcept r >>= f) s (MonadExcept.ofExcept r' >>= g) t := by
  intro c u hc
  obtain ⟨a, s', hx, hf⟩ := succeeds_bind_iff.1 hc
  cases r with
  | error e =>
    rw [Succeeds, exec_ofExcept] at hx
    cases hx
  | ok a =>
    obtain ⟨b, rfl, hfollows⟩ := h a rfl
    obtain ⟨rfl, rfl⟩ := Succeeds.eq (exec_ofExcept (.ok a) s) hx
    obtain ⟨d, v, hg, hcd⟩ := hfollows c u hf
    exact ⟨d, v, Succeeds.bind (exec_ofExcept (.ok b) t) hg, hcd⟩

theorem succeeds_requireObjectLike_iff {u : Unit} :
    Succeeds requireObjectLike s u s' ↔ s.macros.IsObjectLike ∧ s' = s := by
  rw [Succeeds, exec_requireObjectLike]
  split
  next hmacros =>
    refine ⟨fun h => ⟨hmacros, (Succeeds.eq (exec_pure () s) h).2.symm⟩, ?_⟩
    rintro ⟨-, rfl⟩
    rfl
  next hmacros => exact iff_of_false (fun h => by cases h) fun h => hmacros h.1

/-- The first session goes on only if there is no macro with parameters. -/
theorem follows_requireObjectLike_bind {x : PreprocessM (OptionT Id) γ}
    {y : PreprocessM (OptionT Id) δ} (h : s.macros.IsObjectLike → t.macros.IsObjectLike)
    (hxy : s.macros.IsObjectLike → Follows R x s y t) :
    Follows R (requireObjectLike >>= fun _ => x) s (requireObjectLike >>= fun _ => y) t := by
  intro c u hc
  obtain ⟨⟨⟩, s', hrequire, hx⟩ := succeeds_bind_iff.1 hc
  obtain ⟨hmacros, rfl⟩ := succeeds_requireObjectLike_iff.1 hrequire
  obtain ⟨d, v, hy, hcd⟩ := hxy hmacros c u hx
  exact ⟨d, v, Succeeds.bind (a := ()) (succeeds_requireObjectLike_iff.2 ⟨h hmacros, rfl⟩) hy, hcd⟩

/-- Reads a line and writes it at once, and gives up if there is a macro with parameters. -/
abbrev readWatched : LineReader (OptionT Id) := withoutParameters readLineAtOnce

theorem succeeds_readWatched_iff {enter : Text → Bool → Nat → PreprocessM (OptionT Id) Unit}
    {f f' : OpenFile} {group : List Lexeme} :
    Succeeds (readWatched enter f group) s f' s' ↔
      s.macros.IsObjectLike ∧ Succeeds (readLineAtOnce enter f group) s f' s' ∧
        s'.macros.IsObjectLike := by
  unfold readWatched withoutParameters
  constructor
  · intro h
    obtain ⟨⟨⟩, u, hbefore, hrest⟩ := succeeds_bind_iff.1 h
    obtain ⟨hs, rfl⟩ := succeeds_requireObjectLike_iff.1 hbefore
    obtain ⟨f₁, s₁, hline, hlast⟩ := succeeds_bind_iff.1 hrest
    obtain ⟨⟨⟩, u, hbehind, hend⟩ := succeeds_bind_iff.1 hlast
    obtain ⟨hs₁, rfl⟩ := succeeds_requireObjectLike_iff.1 hbehind
    obtain ⟨rfl, rfl⟩ := Succeeds.eq (exec_pure f₁ u) hend
    exact ⟨hs, hline, hs₁⟩
  · rintro ⟨hs, hline, hs'⟩
    have hend : Succeeds (requireObjectLike >>= fun _ => pure f') s' f' s' :=
      Succeeds.bind (a := ()) (succeeds_requireObjectLike_iff.2 ⟨hs', rfl⟩) (exec_pure f' s')
    exact Succeeds.bind (a := ()) (succeeds_requireObjectLike_iff.2 ⟨hs, rfl⟩) (hline.bind hend)

end IdlFrontend.Session
