import IdlFrontend.Proofs.Session.LineReader
import IdlFrontend.Proofs.Session.Output
import IdlFrontend.Proofs.Session.Parallel

/-!
# Sessions that take notes

A session can take notes of the lines that it reads. It runs side by side with the session that
takes none: both do the same, and what is said of the notes is said of a run of that session.

Results:

* `Coupled.map_fst`: a computation that takes notes does what it does when it takes none, and what
  is known of the notes is known of all that come of it.
* `NotingAlways.bind`, `notingAlways_foldlM`: what is known of the notes of a session, step by step.
* `Noting.bind`, `noting_foldlM`: likewise, if nothing is said of the notes of a step that fails.
-/

namespace IdlFrontend

variable {m : Type → Type} [Monad m] {ν α β : Type}

/-- The same store for a session that takes notes. -/
def SourceStore.noting (store : SourceStore m) : SourceStore (StateT ν m) where
  find request := liftM (store.find request)
  capacity := store.capacity

/-- What is said of a run side by side with one that takes notes is said of that run. -/
theorem Coupled.map_fst [LawfulMonad m] {R : α × ν → Prop} {x : m (α × ν)} {y : m α}
    (h : Coupled (fun p a => p.1 = a ∧ R p) x y) : Prod.fst <$> x = y ∧ Always R x := by
  obtain ⟨z, rfl, rfl⟩ := h
  refine ⟨?_, (fun r => ⟨r.1.1, r.2.2⟩) <$> z, ?_⟩
  · rw [← comp_map]
    exact congrArg (· <$> z) (funext fun r => r.2.1)
  · rw [← comp_map]
    rfl

namespace Session

/-- Takes a note. -/
def note (f : ν → ν) : PreprocessM (StateT ν m) Unit := liftM (modify f : StateT ν m Unit)

/-- The step `x` takes notes, and does what `y` does. If they succeed, the value, the session and
    the notes have the property. -/
def Noting (Q : α → Session → ν → Prop) (x : PreprocessM (StateT ν m) α) (notes : ν)
    (y : PreprocessM m α) (s : Session) : Prop :=
  Coupled (fun p q => p.1 = q ∧ ∀ a, q.1 = .ok a → Q a q.2 p.2) (StateT.run (exec x s) notes)
    (exec y s)

/-- Likewise, and the notes have the property `G` also if the step fails. -/
def NotingAlways (G : ν → Prop) (Q : α → Session → ν → Prop) (x : PreprocessM (StateT ν m) α)
    (notes : ν) (y : PreprocessM m α) (s : Session) : Prop :=
  Coupled (fun p q => p.1 = q ∧ G p.2 ∧ ∀ a, q.1 = .ok a → Q a q.2 p.2)
    (StateT.run (exec x s) notes) (exec y s)

theorem noting_iff {Q : α → Session → ν → Prop} {notes : ν} {s : Session}
    {x : PreprocessM (StateT ν m) α} {y : PreprocessM m α} :
    Noting Q x notes y s ↔ NotingAlways (fun _ => True) Q x notes y s := by
  simp only [Noting, NotingAlways, true_and]

variable [LawfulMonad m] {G : ν → Prop} {Q : α → Session → ν → Prop} {R : β → Session → ν → Prop}
    {notes : ν}
  {s : Session} {x : PreprocessM (StateT ν m) α} {y : PreprocessM m α}

/-- A step that comes to the same result in any monad takes no notes. -/
theorem notingAlways_of_exec {r : Except PreprocessError α × Session} (hx : exec x s = pure r)
    (hy : exec y s = pure r) (hnotes : G notes) (h : ∀ a, r.1 = .ok a → Q a r.2 notes) :
    NotingAlways G Q x notes y s := by
  rw [NotingAlways, hx, hy]
  exact coupled_pure ⟨rfl, hnotes, h⟩

theorem notingAlways_pure {a : α} (hnotes : G notes) (h : Q a s notes) :
    NotingAlways (m := m) G Q (pure a) notes (pure a) s := by
  refine notingAlways_of_exec (exec_pure a s) (exec_pure a s) hnotes fun b hb => ?_
  cases hb
  exact h

theorem notingAlways_throw (e : PreprocessError) (hnotes : G notes) :
    NotingAlways (m := m) G Q (throw e) notes (throw e) s :=
  notingAlways_of_exec (exec_throw e s) (exec_throw e s) hnotes fun a ha => by cases ha

theorem NotingAlways.bind {f : α → PreprocessM (StateT ν m) β} {g : α → PreprocessM m β}
    (h : NotingAlways G Q x notes y s)
    (hfg : ∀ a s notes, Q a s notes → NotingAlways G R (f a) notes (g a) s) :
    NotingAlways G R (x >>= f) notes (y >>= g) s := by
  rw [NotingAlways, exec_bind, exec_bind, StateT.run_bind]
  refine Coupled.bind h ?_
  rintro ⟨_, notes⟩ ⟨r, t⟩ ⟨rfl, hnotes, hr⟩
  cases r with
  | ok a => exact hfg a t notes (hr a rfl)
  | error e => exact coupled_pure ⟨rfl, hnotes, fun a ha => by cases ha⟩

theorem NotingAlways.mono {Q' : α → Session → ν → Prop} (h : NotingAlways G Q x notes y s)
    (hQ : ∀ a s notes, Q a s notes → Q' a s notes) : NotingAlways G Q' x notes y s := by
  obtain ⟨z, hx, hy⟩ := h
  refine ⟨(fun r => ⟨r.1, r.2.1, r.2.2.1, fun a ha => hQ _ _ _ (r.2.2.2 a ha)⟩) <$> z, ?_, ?_⟩
  · rw [← comp_map]
    exact hx
  · rw [← comp_map]
    exact hy

theorem notingAlways_ofExcept (r : Except PreprocessError α) (hnotes : G notes)
    (h : ∀ a, r = .ok a → Q a s notes) :
    NotingAlways (m := m) G Q (MonadExcept.ofExcept r) notes (MonadExcept.ofExcept r) s :=
  notingAlways_of_exec (exec_ofExcept r s) (exec_ofExcept r s) hnotes h

theorem notingAlways_get_bind {f : Session → PreprocessM (StateT ν m) α}
    {g : Session → PreprocessM m α} (h : NotingAlways G Q (f s) notes (g s) s) :
    NotingAlways G Q (get >>= f) notes (get >>= g) s := by
  rw [NotingAlways, exec_bind_ok (exec_get s), exec_bind_ok (exec_get s)]
  exact h

/-- A note may depend on the session. -/
theorem notingAlways_look_bind {f : Session → PreprocessM (StateT ν m) α}
    (h : NotingAlways G Q (f s) notes y s) : NotingAlways G Q (get >>= f) notes y s := by
  rw [NotingAlways, exec_bind_ok (exec_get s)]
  exact h

theorem notingAlways_modify {f : Session → Session} {Q : PUnit → Session → ν → Prop}
    (hnotes : G notes) (h : Q ⟨⟩ (f s) notes) :
    NotingAlways (m := m) G Q (modify f) notes (modify f) s :=
  notingAlways_of_exec (exec_modify f s) (exec_modify f s) hnotes fun _ _ => h

theorem notingAlways_note_bind {f : ν → ν} {g : Unit → PreprocessM (StateT ν m) α}
    (h : NotingAlways G Q (g ()) (f notes) y s) : NotingAlways G Q (note f >>= g) notes y s := by
  rw [NotingAlways, note, exec_bind, exec_lift, bind_assoc, StateT.run_bind, StateT.run_modify,
    pure_bind, pure_bind]
  exact h

/-- What all files of the store have in common is known of the one that is found. -/
theorem notingAlways_find_bind {store : SourceStore m} {request : IncludeRequest}
    {P : Option SourceFile → Prop} {f : Option SourceFile → PreprocessM (StateT ν m) β}
    {g : Option SourceFile → PreprocessM m β} (hstore : Always P (store.find request))
    (hnotes : G notes) (h : ∀ found, P found → NotingAlways G R (f found) notes (g found) s) :
    NotingAlways G R (liftM ((store.noting : SourceStore (StateT ν m)).find request) >>= f) notes
      (liftM (store.find request) >>= g) s := by
  have hfound : Coupled (fun a b => a = b ∧ P a) (store.find request) (store.find request) := by
    obtain ⟨z, hz⟩ := hstore
    refine ⟨(fun a => ⟨(a.1, a.1), rfl, a.2⟩) <$> z, ?_, ?_⟩ <;>
    · rw [← comp_map]
      exact hz
  have hfind : NotingAlways G (fun a s' notes' => P a ∧ s' = s ∧ notes' = notes)
      (liftM ((store.noting : SourceStore (StateT ν m)).find request) : PreprocessM
      (StateT ν m) _) notes (liftM (store.find request)) s := by
    rw [NotingAlways, exec_lift, exec_lift, StateT.run_bind, SourceStore.noting]
    dsimp only
    rw [show (liftM (store.find request) : StateT ν m _).run notes =
      store.find request >>= fun found => pure (found, notes) from rfl, bind_assoc]
    refine hfound.bind ?_
    rintro found _ ⟨rfl, hP⟩
    rw [pure_bind]
    refine coupled_pure ⟨rfl, hnotes, fun a ha => ?_⟩
    cases ha
    exact ⟨hP, rfl, rfl⟩
  refine hfind.bind ?_
  rintro found _ _ ⟨hP, rfl, rfl⟩
  exact h found hP

theorem notingAlways_includeTarget (args : List Lexeme) (line : Nat) (hnotes : G notes) :
    NotingAlways (m := m) G (fun _ s' notes' => s' = s ∧ notes' = notes)
      (includeTarget args line) notes (includeTarget args line) s := by
  unfold includeTarget
  split
  · exact notingAlways_pure hnotes ⟨rfl, rfl⟩
  · refine notingAlways_get_bind ?_
    have hexpand := notingAlways_ofExcept (m := m) (Q := fun _ s' notes' => s' = s ∧ notes' = notes)
      (s.macros.expand args) hnotes fun _ _ => ⟨rfl, rfl⟩
    refine hexpand.bind ?_
    rintro expanded _ _ ⟨rfl, rfl⟩
    split
    · exact notingAlways_pure hnotes ⟨rfl, rfl⟩
    · exact notingAlways_throw _ hnotes

/-- A loop over a list. What is known before a step may depend on the elements behind which it
    is. -/
theorem notingAlways_foldlM {as : List β} {Q : List β → α → Session → ν → Prop}
    {f : α → β → PreprocessM (StateT ν m) α} {g : α → β → PreprocessM m α}
    (hQ : ∀ before a s notes, Q before a s notes → G notes)
    (hfg : ∀ before b after, as = before ++ b :: after → ∀ a s notes, Q before a s notes →
      NotingAlways G (Q (before ++ [b])) (f a b) notes (g a b) s)
    {a : α} (h : Q [] a s notes) :
    NotingAlways G (Q as) (as.foldlM f a) notes (as.foldlM g a) s := by
  have hrest (rest : List β) : ∀ before a s notes, as = before ++ rest → Q before a s notes →
      NotingAlways G (Q as) (rest.foldlM f a) notes (rest.foldlM g a) s := by
    induction rest with
    | nil =>
      intro before a s notes has h
      rw [has, List.append_nil]
      exact notingAlways_pure (hQ _ _ _ _ h) h
    | cons b rest ih =>
      intro before a s notes has h
      rw [List.foldlM_cons, List.foldlM_cons]
      exact (hfg before b rest has a s notes h).bind fun a' s' notes' h' =>
        ih (before ++ [b]) a' s' notes' (by simp [has]) h'
  exact hrest as [] a s notes rfl h

/-! ## Notes of steps that succeed -/

theorem noting_of_exec {r : Except PreprocessError α × Session} (hx : exec x s = pure r)
    (hy : exec y s = pure r) (h : ∀ a, r.1 = .ok a → Q a r.2 notes) : Noting Q x notes y s :=
  noting_iff.2 (notingAlways_of_exec hx hy trivial h)

theorem noting_pure {a : α} (h : Q a s notes) : Noting (m := m) Q (pure a) notes (pure a) s :=
  noting_iff.2 (notingAlways_pure trivial h)

theorem noting_throw (e : PreprocessError) : Noting (m := m) Q (throw e) notes (throw e) s :=
  noting_iff.2 (notingAlways_throw e trivial)

theorem Noting.bind {f : α → PreprocessM (StateT ν m) β} {g : α → PreprocessM m β}
    (h : Noting Q x notes y s) (hfg : ∀ a s notes, Q a s notes → Noting R (f a) notes (g a) s) :
    Noting R (x >>= f) notes (y >>= g) s :=
  noting_iff.2 ((noting_iff.1 h).bind fun a s notes ha => noting_iff.1 (hfg a s notes ha))

theorem Noting.mono {Q' : α → Session → ν → Prop} (h : Noting Q x notes y s)
    (hQ : ∀ a s notes, Q a s notes → Q' a s notes) : Noting Q' x notes y s :=
  noting_iff.2 ((noting_iff.1 h).mono hQ)

theorem noting_ofExcept (r : Except PreprocessError α) (h : ∀ a, r = .ok a → Q a s notes) :
    Noting (m := m) Q (MonadExcept.ofExcept r) notes (MonadExcept.ofExcept r) s :=
  noting_iff.2 (notingAlways_ofExcept r trivial h)

theorem noting_get_bind {f : Session → PreprocessM (StateT ν m) α} {g : Session → PreprocessM m α}
    (h : Noting Q (f s) notes (g s) s) : Noting Q (get >>= f) notes (get >>= g) s :=
  noting_iff.2 (notingAlways_get_bind (noting_iff.1 h))

theorem noting_modify {f : Session → Session} {Q : PUnit → Session → ν → Prop}
    (h : Q ⟨⟩ (f s) notes) :
    Noting (m := m) Q (modify f) notes (modify f) s :=
  noting_iff.2 (notingAlways_modify trivial h)

theorem noting_note_bind {f : ν → ν} {g : Unit → PreprocessM (StateT ν m) α}
    (h : Noting Q (g ()) (f notes) y s) : Noting Q (note f >>= g) notes y s :=
  noting_iff.2 (notingAlways_note_bind (noting_iff.1 h))

theorem noting_find_bind {store : SourceStore m} {request : IncludeRequest}
    {f : Option SourceFile → PreprocessM (StateT ν m) β} {g : Option SourceFile → PreprocessM m β}
    (h : ∀ found, Noting R (f found) notes (g found) s) :
    Noting R (liftM ((store.noting : SourceStore (StateT ν m)).find request) >>= f) notes
      (liftM (store.find request) >>= g) s :=
  noting_iff.2 (notingAlways_find_bind (always_true _) trivial fun found _ => noting_iff.1
    (h found))

/-- A loop over a list, likewise. -/
theorem noting_foldlM {as : List β} {Q : List β → α → Session → ν → Prop}
    {f : α → β → PreprocessM (StateT ν m) α} {g : α → β → PreprocessM m α}
    (hfg : ∀ before b after, as = before ++ b :: after → ∀ a s notes, Q before a s notes →
      Noting (Q (before ++ [b])) (f a b) notes (g a b) s)
    {a : α} (h : Q [] a s notes) : Noting (Q as) (as.foldlM f a) notes (as.foldlM g a) s :=
  noting_iff.2 (notingAlways_foldlM (fun _ _ _ _ _ => trivial)
    (fun before b after has a s notes ha => noting_iff.1 (hfg before b after has a s notes ha)) h)

end Session

end IdlFrontend
