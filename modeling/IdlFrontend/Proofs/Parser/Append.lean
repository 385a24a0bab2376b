import Mathlib.Data.List.Infix
import IdlFrontend.Frontend
import IdlFrontend.Proofs.Layout.Output
import IdlFrontend.Proofs.Parser.Definitions
import IdlFrontend.Proofs.Parser.Productions

/-!
# Specifications one behind the other

Of two texts that hold specifications, one is put behind the other on a new line. What the
parser then finds is what it finds in the first one and then what it finds in the second one,
unless the first text ends inside a code fragment. A fragment that is not closed is accepted
at the end of a text, and only there.

One definition can go on behind the line feed: a bare name with which the first text ends
takes a scope operator that begins the second one. A bare name defines nothing.

Results:

* `exists_of_run_definition`: what the longer text makes of a definition.
* `ofText_append_iff`: when two texts can be put together.
-/

namespace IdlFrontend

/-! ## Where the texts meet -/

namespace Lexer

variable {l l' : Lexer} {t : Text}

/-- A line feed in the ordinary mode is left out. -/
theorem next_of_lineFeed (hmode : l.mode = .ordinary) (hrest : l.rest = '\n' :: t) :
    l.next = (l.skip 1).next := by
  rw [next_of_step (by simp [hrest]) (step?_lineFeed hmode hrest)]
  rfl

/-- In the ordinary mode, the second text is read as from its start. -/
theorem Meets.next_eq (h : l.Meets ('\n' :: t) l') (hmode : l.mode = .ordinary)
    (hpragma : l.pragmas.find? "prefix".toList = none) :
    ∃ m, l'.next = m.next ∧ (Lexer.ofText l.dialect t).Extends [] m := by
  have hmode' := h.mode.trans hmode
  have hbelow' := h.below.trans (h.lawful.below_eq_nil hmode)
  have hlawful : (Lexer.ofText l.dialect t).Lawful := lawful_of_ordinary rfl rfl
  rcases h.rest with ⟨hrest, -⟩ | ⟨hrest, hstart⟩
  · have htake : l'.rest.take 1 = ['\n'] := by rw [hrest]; rfl
    have hdrop : (l'.skip 1).rest = t := by
      show l'.rest.drop 1 = t
      rw [hrest]
      rfl
    have hstart : (l'.skip 1).atLineStart = true := by
      show ((l'.rest.take 1).getLast?.map isLineEnd).getD _ = true
      rw [htake]
      rfl
    refine ⟨l'.skip 1, next_of_lineFeed hmode' hrest, ⟨h.dialect, hmode', hbelow', ?_⟩, ?_,
      hstart, hlawful,
      nofun, fun hx => absurd rfl hx⟩
    · exact h.modulePrefix.trans hpragma
    · rw [hdrop, List.append_nil]
      rfl
  · have hrest : l'.rest = t := (List.cons.inj hrest).2.symm
    refine ⟨l', rfl, ⟨h.dialect, hmode', hbelow', h.modulePrefix.trans hpragma⟩, ?_,
      hstart, hlawful,
      nofun, fun hx => absurd rfl hx⟩
    rw [hrest, List.append_nil]
    rfl

/-- A scope operator and a name, which only the ordinary mode knows. -/
def scopedSample : Text := "::a".toList

/-- In another mode, that is no text, or raw text up to its end. -/
theorem next_of_scopedSample (hmode : l.mode ≠ .ordinary)
    (hrest : l.rest = scopedSample ∨ l.rest = '\n' :: scopedSample) :
    (∃ e m, l.next = (.error e, m)) ∨
      ∃ u m, l.next = (.ok (some u), m) ∧ u.kind = .nativeType ∧ m.rest = [] := by
  by_cases hnative : l.mode = .nativeType
  · have hrules : ∀ start ∈ [true, false], ∀ cs ∈ [scopedSample, '\n' :: scopedSample],
        Rule.longestMatch start cs (Rule.inMode .nativeType) =
          some (cs.length, ⟨.nativeType, .token .nativeType, .stay⟩) := by decide +kernel
    have hstep :
        l.step? = some (l.read l.rest.length ⟨.nativeType, .token .nativeType, .stay⟩) := by
      refine step?_eq_some_iff.2 ⟨_, _, ?_, rfl⟩
      rw [hnative]
      exact hrules _ (by simp) _ (by simpa using hrest)
    have hne : l.rest ≠ [] := by rcases hrest with h | h <;> rw [h] <;> decide
    refine .inr ⟨_, _, next_of_step hne hstep, rfl, ?_⟩
    rw [rest_read, List.drop_length]
  · have hmem : l.mode ∈ [Mode.properties, .native, .fragment, .fragmentEnd] := by
      cases hm : l.mode <;> simp_all
    have hstuck {m : Lexer} (hm : m.mode = l.mode) (hcs : m.rest = scopedSample) :
        m.next = (.error m.illegal, m) := by
      have hrules : ∀ mode ∈ [Mode.properties, .native, .fragment, .fragmentEnd],
          ∀ start ∈ [true, false],
            Rule.longestMatch start scopedSample (Rule.inMode mode) = none := by decide +kernel
      refine next_of_no_step (by rw [hcs]; decide) ?_
      rw [step?, hm, hcs, hrules _ hmem _ (by simp)]
      rfl
    left
    rcases hrest with hrest | hrest
    · exact ⟨_, _, hstuck rfl hrest⟩
    · have hrules : ∀ mode ∈ [Mode.properties, .native, .fragment, .fragmentEnd],
          ∀ start ∈ [true, false],
            Rule.longestMatch start ('\n' :: scopedSample) (Rule.inMode mode) =
              some (1, ⟨.lineBreak, .nothing, .stay⟩) := by decide +kernel
      have hstep : l.step? = some (l.read 1 ⟨.lineBreak, .nothing, .stay⟩) :=
        step?_eq_some_iff.2 ⟨_, _, by rw [hrest, hrules _ hmem _ (by simp)], rfl⟩
      rw [next_of_step (by rw [hrest]; decide) hstep]
      refine ⟨_, _, hstuck (m := l.skip 1) rfl ?_⟩
      show l.rest.drop 1 = _
      rw [hrest]
      rfl

end Lexer

namespace Parser

variable {α β : Type} {x t : Text} {n : Nat} {s s' v w : TokenStream} {R : α → α → Prop}
    {L : α → Prop}
  {p q : Parser α}

/-- Parsers one after the other, of which the second one does not succeed at the end of the
    text. So that end is not reached by the first one. -/
theorem Follows.exists_of_bind {f : α → Parser β} {b : β} (hp : Follows x 0 R L p q)
    (hf : ∀ a, L a → Fades x (fun _ => False) (f a)) (hs : s.Extends x n s')
    (hrun : run (p >>= f) s = (.ok b, w)) :
    ∃ a a' u u', R a a' ∧ u.Extends x n u' ∧ run (f a) u = (.ok b, w) ∧
      ∀ g : α → Parser β, run (q >>= g) s' = run (g a') u' := by
  rw [run_bind] at hrun
  rcases hpr : run p s with ⟨e | a, u⟩
  · rw [hpr] at hrun
    cases hrun
  rw [hpr] at hrun
  rcases hp.keeps n s s' a u hs hpr with ⟨a', u', hq, hR, hu⟩ | ⟨hu, ha⟩
  · refine ⟨a, a', u, u', hR, hu, hrun, fun g => ?_⟩
    rw [run_bind, hq]
  · exact absurd (hf a ha u b w hu hrun).2 id

/-- Where no text follows, two parsers that copy each other have the same results. -/
theorem Follows.exists_of_run {a : α} (hp : Follows [] 0 R L p q) (hs : s.Extends [] n s')
    (hrun : run p s = (.ok a, w)) : ∃ b w', run q s' = (.ok b, w') ∧ R a b ∧ w.Extends [] n w' :=
  (hp.keeps n s s' a w hs hrun).resolve_right fun h => h.1.ne_nil rfl

/-! ## Bare names -/

/-- The other parts of a scoped name, in less than `d` rounds. -/
abbrev scopeParts (d : Nat) : Parser (List Text) := unfold (manyRound nextSegment) d ()

theorem follows_nextSegment : Follows x 0 Eq (fun a? => a? = none) nextSegment nextSegment := by
  refine (follows_acceptPunct _).bind_or (fun b hb => ?_) fun b hb => ?_
  · subst hb
    exact follows_pure rfl rfl
  · obtain rfl : b = true := Bool.not_eq_false b ▸ hb
    exact ((closes_identifier _).close (f := some)).mono (fun _ h => h.elim) |>.keeps

theorem run_acceptPunct (p : Punct) (s : TokenStream) :
    run (acceptPunct p) s =
      match run peek? s with
      | (.ok t?, s₁) => match t? with
        | some t => if t.kind = .punct p then (.ok true, afterTake t s₁) else (.ok false, s₁)
        | none => (.ok false, s₁)
      | (.error e, s₁) => (.error e, s₁) := by
  have haccept : acceptPunct p = do
      match ← peek? with
      | some t => if t.kind = .punct p then do modify (afterTake t); return true else return false
      | none => return false :=
    isNext_take_eq (.punct p) (fun _ => pure true) (pure false)
  rw [haccept, run_bind]
  rcases run peek? s with ⟨e | t?, s₁⟩
  · rfl
  · cases t? with
    | none => rfl
    | some t =>
      dsimp only
      split <;> rfl

theorem run_nextSegment_of_ne {s₁ : TokenStream} {t? : Option Token}
    (h : run peek? s = (.ok t?, s₁)) (hne : ∀ t ∈ t?, t.kind ≠ .punct .scope) :
    run nextSegment s = (.ok none, s₁) := by
  unfold nextSegment
  rw [run_bind, run_acceptPunct, h]
  cases t? with
  | none => rfl
  | some t =>
    dsimp only
    rw [if_neg (hne t rfl)]
    rfl

/-- Without another part, only the next token has been looked at. -/
theorem exists_of_run_nextSegment_none (h : run nextSegment s = (.ok none, w)) :
    ∃ t?, run peek? s = (.ok t?, w) := by
  unfold nextSegment at h
  rw [run_bind, run_acceptPunct] at h
  rcases hpeek : run peek? s with ⟨e | t?, s₁⟩
  · rw [hpeek] at h
    cases h
  rw [hpeek] at h
  cases t? with
  | none =>
    cases h
    exact ⟨none, rfl⟩
  | some t =>
    dsimp only at h
    by_cases hkind : t.kind = .punct .scope
    · -- a part that is taken is not `none`
      rw [if_pos hkind] at h
      change run (identifier "after '::'" >>= fun a => pure (some a)) (afterTake t s₁) = _ at h
      rw [run_bind] at h
      rcases hid : run (identifier "after '::'") (afterTake t s₁) with ⟨e | a, u⟩
      · rw [hid] at h
        cases h
      · rw [hid] at h
        cases h
    · rw [if_neg hkind] at h
      cases h
      exact ⟨some t, rfl⟩

/-- The first text ends in a scoped name, and on the longer text this name is still open: `r`
    is what then comes of it, and of what is made of its parts. -/
def EndsInName (x : Text) (n : Nat) (w : TokenStream) (f : List Text → α)
    (r : Except ParseError α × TokenStream) : Prop :=
  w.Spent x ∧ ∃ u u' t? e, u.Extends x n u' ∧ run peek? u = (.ok t?, w) ∧ 6 * x.length < e ∧
    r = run (f <$> scopeParts e) u'

theorem EndsInName.map {f : List Text → α} {r : Except ParseError α × TokenStream}
    (h : EndsInName x n w f r) (g : α → β) :
    EndsInName x n w (fun as => g (f as)) (r.1.map g, r.2) := by
  obtain ⟨hw, u, u', t?, e, hu, hpeek, he, rfl⟩ := h
  refine ⟨hw, u, u', t?, e, hu, hpeek, he, ?_⟩
  rw [run_map, run_map]
  cases (run (scopeParts e) u').1 <;> rfl

theorem run_manyRound (item : Parser (Option α)) (d : Nat) (s : TokenStream) :
    run (unfold (manyRound item) (d + 1) ()) s =
      match run item s with
      | (.ok none, u) => (.ok [], u)
      | (.ok (some a), u) => run ((a :: ·) <$> unfold (manyRound item) d ()) u
      | (.error e, u) => (.error e, u) := by
  show run (item >>= _) s = _
  rw [run_bind]
  rcases run item s with ⟨e | a?, u⟩
  · rfl
  · cases a? with
    | none => rfl
    | some a =>
      show run (unfold (manyRound item) d () >>= fun as => pure (a :: as)) u = _
      rw [bind_pure_comp]

/-- What the longer text makes of the parts of a scoped name. -/
theorem exists_of_run_scopeParts {d e : Nat} {as : List Text} (he : d + 6 * x.length ≤ e)
    (hs : s.Extends x n s') (hrun : run (scopeParts d) s = (.ok as, w)) :
    (∃ w', run (scopeParts e) s' = (.ok as, w') ∧ w.Extends x n w') ∨
      ∃ f, EndsInName x n w f (run (scopeParts e) s') := by
  induction d generalizing e s s' as with
  | zero => cases hrun
  | succ d ih =>
    obtain ⟨e, rfl⟩ : ∃ k, e = k + 1 := ⟨e - 1, by omega⟩
    rw [run_manyRound] at hrun
    rcases hpart : run nextSegment s with ⟨err | a?, u⟩
    · rw [hpart] at hrun
      cases hrun
    rw [hpart] at hrun
    rcases follows_nextSegment.keeps n s s' a? u hs hpart with ⟨a?', u', hpart', rfl,
      hu⟩ | ⟨hu, rfl⟩
    · rw [run_manyRound, hpart']
      cases a? with
      | none =>
        cases hrun
        exact .inl ⟨u', rfl, hu⟩
      | some a =>
        dsimp only at hrun ⊢
        rw [run_map] at hrun ⊢
        rcases hmore : run (scopeParts d) u with ⟨err | more, v⟩
        · rw [hmore] at hrun
          cases hrun
        rw [hmore] at hrun
        cases hrun
        rcases ih (e := e) (by omega) hu hmore with ⟨w', hrun', hw⟩ | ⟨f, hends⟩
        · rw [hrun']
          exact .inl ⟨w', rfl, hw⟩
        · exact .inr ⟨_, hends.map (a :: ·)⟩
    · cases hrun
      obtain ⟨t?, hpeek⟩ := exists_of_run_nextSegment_none hpart
      refine .inr ⟨id, hu, s, s', t?, e + 1, hs, hpeek, by omega, ?_⟩
      rw [id_map]

/-- A scoped name whose parts do not matter. -/
theorem scopedName_bind_eq (a : α) :
    (do let _ ← scopedName; return a : Parser α) = (do
      let _ ← acceptPunct .scope
      let _ ← identifier "in scoped name"
      (fun _ => a) <$> many nextSegment) := by
  simp only [scopedName, nextSegment, bind_assoc, map_eq_pure_bind, pure_bind]

theorem fades_scopedName_bind (a : α) :
    Fades x (fun _ => False) (do let _ ← scopedName; return a : Parser α) := by
  rw [scopedName_bind_eq]
  exact (follows_acceptPunct _).fades.bind fun _ _ =>
    (closes_identifier _).fades.bind fun _ h => h.elim

/-- What the longer text makes of a bare name. -/
theorem exists_of_run_scopedName {a b : α} (hs : s.Extends x n s')
    (hrun : run (do let _ ← scopedName; return a) s = (.ok b, w)) :
    (∃ w', run (do let _ ← scopedName; return a) s' = (.ok b, w') ∧ w.Extends x n w') ∨
      b = a ∧ EndsInName x n w (fun _ => a) (run (do let _ ← scopedName; return a) s') := by
  rw [scopedName_bind_eq] at hrun ⊢
  obtain ⟨_, _, s₁, s₁', rfl, hs₁, hrun, hlong⟩ := (follows_acceptPunct .scope).exists_of_bind
    (fun _ _ => (closes_identifier _).fades.bind fun _ h => h.elim) hs hrun
  rw [hlong]
  obtain ⟨_, _, s₂, s₂', rfl, hs₂, hrun, hlong⟩ :=
    (closes_identifier "in scoped name").exists_of_bind (fun _ h => h.elim) hs₁ hrun
  rw [hlong]
  rw [run_map, many, run_recurse] at hrun ⊢
  have hround (u : TokenStream) :
      run (manyRound nextSegment (unfold (manyRound nextSegment) u.unread) ()) u =
      run (scopeParts (u.unread + 1)) u := rfl
  rw [hround] at hrun ⊢
  rcases hmany : run (scopeParts (s₂.unread + 1)) s₂ with ⟨e | as, u⟩
  · rw [hmany] at hrun
    cases hrun
  rw [hmany] at hrun
  cases hrun
  have hunread := hs₂.unread_eq
  rcases exists_of_run_scopeParts (e := s₂'.unread + 1) (by omega) hs₂ hmany with
    ⟨w', hmany', hw⟩ | ⟨f, hends⟩
  · rw [hmany']
    exact .inl ⟨w', rfl, hw⟩
  · exact .inr ⟨rfl, hends.map fun _ => a⟩

/-- **What the longer text makes of a definition.** -/
theorem exists_of_run_definition {d : Option Definition} (hs : s.Extends x n s')
    (hrun : run definition s = (.ok d, w)) :
    (∃ w', run definition s' = (.ok d, w') ∧ w.Extends x n w') ∨
      d = none ∧ EndsInName x n w (fun _ => none) (run definition s') := by
  rw [definition, run_recurse] at hrun ⊢
  have hunread := hs.unread_eq
  have hnested j :
      Copies x (unfold definitionRound s.unread j) (unfold definitionRound s'.unread j) :=
    follows_unfold copies_definitionRound (by omega) j
  have hself j : Copies x (unfold definitionRound s.unread j) (unfold definitionRound s.unread j) :=
    follows_unfold copies_definitionRound (Nat.le_refl _) j
  generalize unfold definitionRound s.unread = nested at hrun hnested hself
  generalize unfold definitionRound s'.unread = nested' at hnested ⊢
  unfold definitionRound at hrun ⊢
  obtain ⟨l, _, s₁, s₁', rfl, hs₁, hrun, hlong⟩ :=
    copies_lead.exists_of_bind (fun l _ => fades_afterPeek (hself ()) l) hs hrun
  rw [hlong]
  obtain ⟨t, t', s₂, s₂', ⟨line, rfl⟩, hs₂, hrun, hlong⟩ :=
    follows_peek.exists_of_bind (fun t ht => fades_afterLead (hself ()) l ht) hs₁ hrun
  rw [hlong]
  by_cases hname : l.isEmpty ∧ opensName t.kind
  · have hopens : opensName ({ t with line } : Token).kind := hname.2
    rw [afterLead_of_opensName _ hname.1 hname.2] at hrun
    rw [afterLead_of_opensName _ hname.1 hopens]
    obtain ⟨d??, _, s₃, s₃', rfl, hs₃, hrun, hlong⟩ := (follows_bare? l).exists_of_bind
      (fun d?? h => by subst h; exact fades_scopedName_bind none) hs₂ hrun
    rw [hlong]
    cases d?? with
    | some d =>
      cases hrun
      exact .inl ⟨s₃', rfl, hs₃⟩
    | none => exact exists_of_run_scopedName hs₃ hrun
  · have hcloses := closes_afterLead (hnested ()) hname t.text t.line line
    obtain ⟨d', w', hd, rfl, hw⟩ | ⟨-, hends⟩ := hcloses.keeps n s₂ s₂' d w hs₂ hrun
    · exact .inl ⟨w', hd, hw⟩
    · exact hends.elim

/-! ## The end of the first text -/

theorem run_peek?_of_rest_eq_nil (hahead : s.ahead = none) (hrest : s.lexer.rest = []) :
    run peek? s = (.ok none, s) := by
  rw [run_peek?, hahead, Lexer.next_of_rest_eq_nil hrest]
  cases s
  cases hahead
  rfl

/-- What the longer text has in place of its end. -/
theorem exists_of_peek?_eq_none (hs : s.Extends x n s') (hrun : run peek? s = (.ok none, w)) :
    w.lexer.rest = [] ∧ w.ahead = none ∧ ((w.lexer.mode = .fragment → '%' ∉ x) →
      ∃ m, w.lexer.Meets x m ∧ run peek? s' = run peek? { s' with lexer := m, ahead := none }) := by
  have hrel := hs.ahead
  rw [run_peek?] at hrun
  cases hahead : s.ahead with
  | some u =>
    rw [hahead] at hrun
    cases hrun
  | none =>
    rw [hahead] at hrun hrel
    have hahead' : s'.ahead = none := by
      cases hahead' : s'.ahead with
      | none => rfl
      | some u => rw [hahead'] at hrel; cases hrel
    have halong := hs.lexer.next
    generalize s.lexer.next = r at halong hrun
    cases halong with
    | failed | token | nativeType => cases hrun
    | @ended m hrest hmeets =>
      cases hrun
      refine ⟨hrest, rfl, fun hmode => ?_⟩
      obtain ⟨m', hnext, hm⟩ := hmeets hmode
      refine ⟨m', hm, ?_⟩
      rw [run_peek?, run_peek?, hahead', hnext]

/-- Definitions up to the end of the text, in less than `d` rounds. -/
abbrev definitions (d : Nat) : Parser (List (Option Definition)) :=
  unfold (manyRound nextDefinition) d ()

theorem run_specification (s : TokenStream) :
    run specification s =
      ((run (definitions (s.unread + 1)) s).1.map fun ds => ⟨ds.filterMap id⟩,
        (run (definitions (s.unread + 1)) s).2) := by
  rw [specification, bind_pure_comp, run_map, many, run_recurse]
  rfl

theorem copies_nextDefinition : Copies x nextDefinition nextDefinition := by
  refine follows_peek?.bind_of (fun t? u? h => ?_) fun t? h => ?_
  · cases h with
    | none => exact (copies_pure none).keeps
    | some => exact (copies_definition.bind fun d => copies_pure (some d)).keeps
  · cases t? with
    | none => exact (copies_pure none).fades
    | some => exact (copies_definition.bind fun d => copies_pure (some d)).fades

theorem run_definitions (d : Nat) (s : TokenStream) :
    run (definitions (d + 1)) s =
      match run peek? s with
      | (.ok none, u) => (.ok [], u)
      | (.ok (some _), u) => run (do let a ← definition; (a :: ·) <$> definitions d) u
      | (.error e, u) => (.error e, u) := by
  rw [run_manyRound, nextDefinition, run_bind]
  rcases run peek? s with ⟨e | t?, u⟩
  · rfl
  cases t? with
  | none => rfl
  | some t =>
    dsimp only
    rw [bind_pure_comp, run_map, run_bind]
    rcases run definition u with ⟨e | a, v⟩ <;> rfl

theorem eq_of_run_definitions_of_spent {d : Nat} {ds : List (Option Definition)} (hs : s.Spent x)
    (hrun : run (definitions d) s = (.ok ds, w)) : ds = [] ∧ w = s ∧ s.ahead = none := by
  cases d with
  | zero => cases hrun
  | succ d =>
    rw [run_definitions] at hrun
    cases hahead : s.ahead with
    | none =>
      rw [run_peek?_of_rest_eq_nil hahead hs.rest] at hrun
      cases hrun
      exact ⟨rfl, rfl, rfl⟩
    | some t =>
      rw [run_peek?_of_ahead hahead] at hrun
      dsimp only at hrun
      rw [run_bind] at hrun
      rcases hdef : run definition s with ⟨err | a, u⟩
      · rw [hdef] at hrun
        cases hrun
      · exact absurd (fades_definition s a u hs hdef).2 id

/-- **What the longer text makes of definitions.** Up to the end of the first text they are the
    same. There, the other parser looks for the next definition, or for more of a bare name. -/
theorem exists_of_run_definitions {d e : Nat} {ds : List (Option Definition)}
    (he : d + 6 * x.length ≤ e) (hs : s.Extends x n s')
    (hrun : run (definitions d) s = (.ok ds, w)) :
    ∃ u u' e₁ e₂, u.Extends x n u' ∧ run peek? u = (.ok none, w) ∧ 6 * x.length < e₁ ∧
      6 * x.length < e₂ ∧ (
        run (definitions e) s' = run ((ds ++ ·) <$> definitions e₁) u' ∨
        run (definitions e) s' =
          run ((ds ++ ·) <$> do let _ ← scopeParts e₂; definitions e₁) u') := by
  induction d generalizing e s s' ds with
  | zero => cases hrun
  | succ d ih =>
    obtain ⟨e, rfl⟩ : ∃ k, e = k + 1 := ⟨e - 1, by omega⟩
    rw [run_definitions] at hrun
    rcases hpeek : run peek? s with ⟨err | t?, s₁⟩
    · rw [hpeek] at hrun
      cases hrun
    rw [hpeek] at hrun
    cases t? with
    | none =>
      cases hrun
      refine ⟨s, s', e + 1, e + 1, hs, hpeek, by omega, by omega, .inl ?_⟩
      exact congrArg (run · s') (id_map _).symm
    | some t =>
      dsimp only at hrun
      rw [run_bind] at hrun
      rcases hdef : run definition s₁ with ⟨err | a, s₂⟩
      · rw [hdef] at hrun
        cases hrun
      rw [hdef] at hrun
      dsimp only at hrun
      rw [run_map] at hrun
      rcases hmore : run (definitions d) s₂ with ⟨err | more, v⟩
      · rw [hmore] at hrun
        cases hrun
      rw [hmore] at hrun
      cases hrun
      rcases keeps_peek? n s s' (some t) s₁ hs hpeek with ⟨t?', s₁', hpeek', ht, hs₁⟩ | ⟨hs₁, -⟩
      · obtain ⟨t', rfl⟩ : ∃ t', t?' = some t' := by cases ht; exact ⟨_, rfl⟩
        rw [run_definitions, hpeek']
        dsimp only
        rw [run_bind]
        rcases exists_of_run_definition hs₁ hdef with
          ⟨s₂', hdef', hs₂⟩ | ⟨rfl, hs₂, u, u', t?, e₂, hu, hend, he₂, hname⟩
        · obtain ⟨u, u', e₁, e₂, hu, hend, he₁, he₂, heq⟩ := ih (e := e) (by omega) hs₂ hmore
          have hcons {q : Parser (List (Option Definition))}
              (h : run (definitions e) s₂' = run ((more ++ ·) <$> q) u') :
              run ((a :: ·) <$> definitions e) s₂' = run ((a :: more ++ ·) <$> q) u' := by
            rw [run_map, h, ← run_map, Functor.map_map]
            rfl
          rw [hdef']
          exact ⟨u, u', e₁, e₂, hu, hend, he₁, he₂, heq.imp hcons hcons⟩
        · obtain ⟨rfl, rfl, hnone⟩ := eq_of_run_definitions_of_spent hs₂ hmore
          have hahead := ahead_of_peek? (s := u) (t := t?) (by rw [hend])
          rw [hend] at hahead
          obtain rfl : t? = none := hahead.symm.trans hnone
          have hd : d ≠ 0 := fun h => by subst h; cases hmore
          refine ⟨u, u', e, e₂, hu, hend, by omega, he₂, .inr ?_⟩
          rw [hname, run_map, run_map, run_bind]
          rcases run (scopeParts e₂) u' with ⟨err | as, v⟩
          · rfl
          · exact run_map _ _ _
      · exact absurd (fades_definition s₁ a s₂ hs₁ hdef).2 id

/-! ## The second text -/

theorem run_definitions_congr (h : run peek? s = run peek? s') (d : Nat) :
    run (definitions (d + 1)) s = run (definitions (d + 1)) s' := by
  rw [run_definitions, run_definitions, h]

theorem run_scopeParts_congr (h : run peek? s = run peek? s') (d : Nat) :
    run (scopeParts (d + 1)) s = run (scopeParts (d + 1)) s' := by
  have hpart : run nextSegment s = run nextSegment s' := by
    rw [nextSegment, run_bind, run_bind, run_acceptPunct, run_acceptPunct, h]
  rw [run_manyRound, run_manyRound, hpart]

/-- In the ordinary mode, the second text is read as from its start. -/
theorem exists_of_peek?_eq_none_of_ordinary (hs : s.Extends ('\n' :: t) 0 s')
    (hrun : run peek? s = (.ok none, w)) (hmode : w.lexer.mode = .ordinary)
    (hpragma : w.lexer.pragmas.find? "prefix".toList = none) :
    ∃ v, (TokenStream.ofText w.lexer.dialect t).Extends [] 0 v ∧ run peek? s' = run peek? v := by
  obtain ⟨-, -, hmeets⟩ := exists_of_peek?_eq_none hs hrun
  obtain ⟨m, hm, hpeek⟩ := hmeets fun h => by rw [hmode] at h; cases h
  obtain ⟨m', hnext, hextends⟩ := hm.next_eq hmode hpragma
  refine ⟨{ s' with lexer := m', ahead := none }, ⟨hextends, .none, rfl, hs.openAngles', nofun⟩, ?_⟩
  rw [hpeek, run_peek?, run_peek?]
  dsimp only
  rw [hnext]

/-- A bare name that begins with a scope operator has no lead. -/
theorem run_lead_of_scope {u : Token} (h : run peek? s = (.ok (some u), w))
    (hu : u.kind = .punct .scope) : run lead s = (.ok {}, w) := by
  have hagain := run_peek?_again h
  rw [lead, run_recurse, leadRound, run_bind, isPunct, run_isNext, h]
  dsimp only
  rw [if_neg (by rw [Option.map_some, hu]; decide), run_bind, kind?, run_bind, hagain]
  dsimp only
  rw [run_pure, Option.map_some, hu]
  rfl

/-- A token that is no semicolon and no fragment is left for the declaration. -/
theorem run_bare?_of_ne {u : Token} (h : run peek? s = (.ok (some u), s))
    (hsemicolon : u.kind ≠ .punct .semicolon) (hfragment : u.kind ≠ .fragment) (l : Lead) :
    run (bare? l) s = (.ok none, s) := by
  have hno : run (acceptPunct .semicolon) s = (.ok false, s) := by
    rw [run_acceptPunct, h]
    exact if_neg hsemicolon
  have hnext : run (isNext .fragment) s = (.ok false, s) := by
    rw [run_isNext, h]
    exact congrArg (fun b => (Except.ok b, s))
      (beq_eq_false_iff_ne.2 fun heq => hfragment (Option.some.inj heq))
  unfold bare?
  split
  · rfl
  · rw [run_bind, hno]
    dsimp only
    rw [if_neg Bool.false_ne_true, run_bind, hnext]
    rfl

theorem run_definition_of_scope {u : Token} (h : run peek? s = (.ok (some u), w))
    (hu : u.kind = .punct .scope) :
    run definition s = run (do let _ ← scopedName; return none) w := by
  have hagain := run_peek?_again h
  rw [definition, run_recurse]
  generalize unfold definitionRound s.unread = nested
  unfold definitionRound
  rw [run_bind, run_lead_of_scope h hu]
  dsimp only
  rw [run_bind, peek, run_bind, hagain]
  dsimp only
  rw [run_pure]
  dsimp only
  have hbare := run_bare?_of_ne hagain (by rw [hu]; decide) (by rw [hu]; decide) {}
  rw [afterLead_of_opensName _ rfl (by rw [hu]; rfl), run_bind, hbare]

theorem run_identifier_of_ok {place : String} {a : Text} (h : run (identifier place) s = (.ok a, w))
    (place' : String) : run (identifier place') s = (.ok a, w) := by
  unfold identifier at h ⊢
  rw [run_bind] at h ⊢
  rcases hexpect : run (expect .identifier place) s with ⟨e | u, s₁⟩
  · rw [hexpect] at h
    cases h
  · obtain ⟨s₂, hpeek, hkind, rfl⟩ := exists_of_run_expect hexpect
    rw [hexpect] at h
    rw [run_expect_of_peek? hpeek hkind]
    exact h

/-- The parts of a bare name that begins with a scope operator. -/
theorem exists_of_run_definition_of_scope {u : Token} {d : Option Definition}
    (h : run peek? s = (.ok (some u), w)) (hu : u.kind = .punct .scope)
    (hrun : run definition s = (.ok d, v)) :
    d = none ∧ ∃ a s₂ as, run (identifier "after '::'") (afterTake u w) = (.ok a, s₂) ∧
      run (scopeParts (s₂.unread + 1)) s₂ = (.ok as, v) := by
  rw [run_definition_of_scope h hu, scopedName_bind_eq, run_bind, run_acceptPunct,
    run_peek?_again h] at hrun
  dsimp only at hrun
  rw [if_pos hu] at hrun
  dsimp only at hrun
  rw [run_bind] at hrun
  rcases hfirst : run (identifier "in scoped name") (afterTake u w) with ⟨err | a, s₂⟩
  · rw [hfirst] at hrun
    cases hrun
  rw [hfirst] at hrun
  dsimp only at hrun
  have hmany : run (many nextSegment) s₂ = run (scopeParts (s₂.unread + 1)) s₂ := rfl
  rw [run_map, hmany] at hrun
  rcases hparts : run (scopeParts (s₂.unread + 1)) s₂ with ⟨err | as, s₃⟩
  · rw [hparts] at hrun
    cases hrun
  · rw [hparts] at hrun
    cases hrun
    exact ⟨rfl, a, s₂, as, run_identifier_of_ok hfirst _, hparts⟩

theorem unread_afterTake_lt {u : Token} (h : run peek? s = (.ok (some u), w)) :
    (afterTake u w).unread < s.unread := by
  have hlt := unread_take_lt (s := s) (t := u) (by rw [run_take, h])
  rwa [run_take, h] at hlt

theorem unread_identifier_lt {place : String} {a : Text}
    (h : run (identifier place) s = (.ok a, w)) :
    w.unread < s.unread := by
  unfold identifier at h
  rw [run_bind] at h
  rcases hexpect : run (expect .identifier place) s with ⟨e | u, s₁⟩
  · rw [hexpect] at h
    cases h
  · obtain ⟨s₂, hpeek, hkind, rfl⟩ := exists_of_run_expect hexpect
    rw [hexpect] at h
    cases h
    exact unread_afterTake_lt hpeek

theorem copies_definitions {d e : Nat} (he : d ≤ e) : Copies x (definitions d) (definitions e) :=
  follows_unfold (copies_manyRound copies_nextDefinition) he ()

theorem copies_scopeParts {d e : Nat} (he : d ≤ e) : Copies x (scopeParts d) (scopeParts e) :=
  follows_unfold (copies_manyRound follows_nextSegment.copies) he ()

theorem run_scopeParts_of_ne {d : Nat} {u? : Option Token} (h : run peek? s = (.ok u?, w))
    (hne : ∀ u ∈ u?, u.kind ≠ .punct .scope) : run (scopeParts (d + 1)) s = (.ok [], w) := by
  rw [run_manyRound, run_nextSegment_of_ne h hne]

theorem run_scopeParts_of_scope {d : Nat} {u : Token} (h : run peek? s = (.ok (some u), w))
    (hu : u.kind = .punct .scope) :
    run (scopeParts (d + 1)) s =
      run (do let a ← identifier "after '::'"; (a :: ·) <$> scopeParts d) (afterTake u w) := by
  have hpart : run nextSegment s =
      run (identifier "after '::'" >>= fun a => pure (some a)) (afterTake u w) := by
    rw [nextSegment, run_bind, run_acceptPunct, h]
    dsimp only
    rw [if_pos hu]
    rfl
  rw [run_manyRound, hpart, bind_pure_comp, run_map, run_bind]
  rcases run (identifier "after '::'") (afterTake u w) with ⟨e | a, v⟩ <;> rfl

/-- **More of a bare name in front of the second text.** It takes what would be a bare name of
    its own there, and that defines nothing. -/
theorem exists_of_run_scopeParts_bind {d e e' : Nat} {es : List (Option Definition)} (he : d ≤ e)
    (he' : s.unread < e') (hs : s.Extends [] n s') (hrun : run (definitions d) s = (.ok es, w)) :
    ∃ cs w', run (do let _ ← scopeParts e'; definitions e) s' = (.ok cs, w') ∧
      cs.filterMap id = es.filterMap id := by
  obtain ⟨e', rfl⟩ : ∃ k, e' = k + 1 := ⟨e' - 1, by omega⟩
  obtain ⟨d, rfl⟩ : ∃ k, d = k + 1 := Nat.exists_eq_succ_of_ne_zero fun h => by subst h; cases hrun
  obtain ⟨e, rfl⟩ : ∃ k, e = k + 1 := ⟨e - 1, by omega⟩
  rcases hpeek : run peek? s with ⟨err | u?, s₁⟩
  · rw [run_definitions, hpeek] at hrun
    cases hrun
  obtain ⟨u?', s₁', hpeek', hu, hs₁⟩ := follows_peek?.exists_of_run hs hpeek
  cases hu with
  | none =>
    rw [run_definitions, hpeek] at hrun
    cases hrun
    have hrest : s₁'.lexer.rest = [] := by
      rw [hs₁.lexer.rest, (exists_of_peek?_eq_none hs hpeek).1]
      rfl
    have hahead := ahead_of_peek? (s := s') (t := none) (by rw [hpeek'])
    rw [hpeek'] at hahead
    refine ⟨[], s₁', ?_, rfl⟩
    rw [run_bind, run_scopeParts_of_ne hpeek' nofun]
    dsimp only
    rw [run_definitions, run_peek?_of_rest_eq_nil hahead hrest]
  | @some u u' halike =>
    obtain ⟨line, rfl⟩ := halike
    by_cases hkind : u.kind = .punct .scope
    · rw [run_definitions, hpeek] at hrun
      dsimp only at hrun
      rw [run_bind] at hrun
      rcases hdef : run definition s₁ with ⟨err | a, s₃⟩
      · rw [hdef] at hrun
        cases hrun
      rw [hdef] at hrun
      dsimp only at hrun
      rw [run_map] at hrun
      rcases hmore : run (definitions d) s₃ with ⟨err | more, v⟩
      · rw [hmore] at hrun
        cases hrun
      rw [hmore] at hrun
      cases hrun
      obtain ⟨rfl, name, s₂, parts, hname, hparts⟩ :=
        exists_of_run_definition_of_scope (run_peek?_again hpeek) hkind hdef
      have hs₁' : (afterTake u s₁).Extends [] n (afterTake { u with line } s₁') :=
        ⟨hs₁.lexer, .none, hs₁.openAngles, hs₁.openAngles', nofun⟩
      have hunread₁ := unread_afterTake_lt hpeek
      have hunread₂ := unread_identifier_lt hname
      obtain ⟨_, s₂', hname', rfl, hs₂⟩ := (closes_identifier _).exists_of_run hs₁' hname
      obtain ⟨_, s₃', hparts', rfl, hs₃⟩ :=
        (copies_scopeParts (e := e') (by omega)).exists_of_run hs₂ hparts
      obtain ⟨_, w', hmore', rfl, -⟩ :=
        (copies_definitions (e := e + 1) (by omega)).exists_of_run hs₃ hmore
      refine ⟨more, w', ?_, rfl⟩
      rw [run_bind, run_scopeParts_of_scope hpeek' hkind, run_bind, hname']
      dsimp only
      rw [run_map, hparts']
      exact hmore'
    · obtain ⟨_, w', hrun', rfl, -⟩ := (copies_definitions he).exists_of_run hs hrun
      refine ⟨es, w', ?_, rfl⟩
      rw [run_bind, run_scopeParts_of_ne hpeek' fun _ h => by cases h; exact hkind]
      dsimp only
      rw [run_definitions_congr ((run_peek?_again hpeek').trans hpeek'.symm), hrun']

/-- In another mode, there is neither a definition nor the end of the text. -/
theorem run_peek?_of_ne_ordinary (hs : s.Extends ('\n' :: Lexer.scopedSample) n s')
    (hrun : run peek? s = (.ok none, w)) (hmode : w.lexer.mode ≠ .ordinary) :
    (∃ e v, run peek? s' = (.error e, v)) ∨
      ∃ u v, run peek? s' = (.ok (some u), v) ∧ u.kind = .nativeType ∧
        v.Spent Lexer.scopedSample := by
  obtain ⟨-, -, hmeets⟩ := exists_of_peek?_eq_none hs hrun
  obtain ⟨m, hm, hpeek⟩ := hmeets fun _ => by decide
  have hmode' : m.mode ≠ .ordinary := fun h => hmode (hm.mode.symm.trans h)
  have hrest : m.rest = Lexer.scopedSample ∨ m.rest = '\n' :: Lexer.scopedSample :=
    hm.rest.symm.imp (fun h => (List.cons.inj h.1).2.symm) And.left
  rw [hpeek, run_peek?]
  rcases Lexer.next_of_scopedSample hmode' hrest with ⟨e, m', hnext⟩ | ⟨u, m', hnext, hu, hend⟩
  · dsimp only
    rw [hnext]
    exact .inl ⟨_, _, rfl⟩
  · dsimp only
    rw [hnext]
    exact .inr ⟨u, _, rfl, hu, by decide, hend, fun t ht => by cases ht; exact hu⟩

/-- No definitions are found there, not even behind more of a bare name. -/
theorem fails_of_ne_ordinary (hs : s.Extends ('\n' :: Lexer.scopedSample) n s')
    (hrun : run peek? s = (.ok none, w)) (hmode : w.lexer.mode ≠ .ordinary) (e e' : Nat)
    (ds : List (Option Definition)) (v : TokenStream) :
    run (definitions (e + 1)) s' ≠ (.ok ds, v) ∧
      run (do let _ ← scopeParts (e' + 1); definitions (e + 1)) s' ≠ (.ok ds, v) := by
  rcases run_peek?_of_ne_ordinary hs hrun hmode with ⟨err, s₁, hpeek⟩ | ⟨u, s₁, hpeek, hu, hspent⟩
  · have hpart : run nextSegment s' = (.error err, s₁) := by
      rw [nextSegment, run_bind, run_acceptPunct, hpeek]
    refine ⟨fun h => ?_, fun h => ?_⟩
    · rw [run_definitions, hpeek] at h
      cases h
    · rw [run_bind, run_manyRound, hpart] at h
      cases h
  · have hahead := ahead_of_peek? (s := s') (t := some u) (by rw [hpeek])
    rw [hpeek] at hahead
    have hfails : run (definitions (e + 1)) s₁ ≠ (.ok ds, v) := fun h => by
      have hnone := (eq_of_run_definitions_of_spent hspent h).2.2
      rw [hahead] at hnone
      cases hnone
    have hscope : u.kind ≠ .punct .scope := fun h => by rw [hu] at h; cases h
    refine ⟨fun h => hfails ?_, fun h => hfails ?_⟩
    · rwa [run_definitions_congr (hpeek.trans (run_peek?_again hpeek).symm)] at h
    · rwa [run_bind, run_scopeParts_of_ne hpeek fun _ h => by cases h; exact hscope] at h

/-! ## Whole texts -/

theorem extends_ofText (dialect : Dialect) {cs : Text} (hx : OnNewLine x)
    (hcomment : x ≠ [] → ¬['/', '*'] <:+: cs) :
    (TokenStream.ofText dialect cs).Extends x 0 (.ofText dialect (cs ++ x)) :=
  ⟨⟨⟨rfl, rfl, rfl, rfl⟩, rfl, rfl, Lexer.lawful_of_ordinary rfl rfl, hx, hcomment⟩, .none, rfl,
    rfl, nofun⟩

theorem unread_ofText (dialect : Dialect) (cs : Text) :
    (TokenStream.ofText dialect cs).unread = 6 * cs.length := by
  show 3 * (2 * cs.length + 0) + 0 = _
  omega

theorem ofText_eq (dialect : Dialect) (cs : Text) :
    Specification.ofText dialect cs =
      (run (definitions (6 * cs.length + 1)) (.ofText dialect cs)).1.map fun ds =>
        ⟨ds.filterMap id⟩ := by
  rw [Specification.ofText, run_specification, unread_ofText]

/-- What is found in a text is what its definitions define. -/
theorem ofText_eq_ok_iff {dialect : Dialect} {cs : Text} {spec : Specification} :
    Specification.ofText dialect cs = .ok spec ↔ ∃ ds w,
      run (definitions (6 * cs.length + 1)) (.ofText dialect cs) = (.ok ds, w) ∧
        ⟨ds.filterMap id⟩ = spec := by
  rw [ofText_eq]
  rcases run (definitions (6 * cs.length + 1)) (.ofText dialect cs) with ⟨e | ds, w⟩
  · exact ⟨nofun, fun ⟨_, _, h, _⟩ => by cases h⟩
  · constructor
    · intro h
      exact ⟨ds, w, rfl, Except.ok.inj h⟩
    · rintro ⟨_, _, ⟨⟩, rfl⟩
      rfl

/-- The second text is read to its end if the first one ends in the ordinary mode. -/
theorem exists_of_run_append {ds es : List (Option Definition)} {e₁ e₂ : Nat}
    (hs : s.Extends ('\n' :: t) 0 s') (hend : run peek? s = (.ok none, w))
    (hmode : w.lexer.mode = .ordinary) (hpragma : w.lexer.pragmas.find? "prefix".toList = none)
    (hrun : run (definitions (6 * t.length + 1)) (.ofText w.lexer.dialect t) = (.ok es, v))
    (he₁ : 6 * t.length < e₁) (he₂ : 6 * t.length < e₂) {q : Parser (List (Option Definition))}
    (hq : q = definitions e₁ ∨ q = do let _ ← scopeParts e₂; definitions e₁) :
    ∃ cs w', run ((ds ++ ·) <$> q) s' = (.ok cs, w') ∧
      cs.filterMap id = ds.filterMap id ++ es.filterMap id := by
  obtain ⟨u, hu, hpeek⟩ := exists_of_peek?_eq_none_of_ordinary hs hend hmode hpragma
  obtain ⟨e₁, rfl⟩ : ∃ k, e₁ = k + 1 := ⟨e₁ - 1, by omega⟩
  obtain ⟨e₂, rfl⟩ : ∃ k, e₂ = k + 1 := ⟨e₂ - 1, by omega⟩
  have hfound : ∃ cs w', run q s' = (.ok cs, w') ∧ cs.filterMap id = es.filterMap id := by
    rcases hq with rfl | rfl
    · obtain ⟨_, w', hrun', rfl, -⟩ :=
        (copies_definitions (e := e₁ + 1) (by omega)).exists_of_run hu hrun
      exact ⟨es, w', (run_definitions_congr hpeek e₁).trans hrun', rfl⟩
    · rw [run_bind, run_scopeParts_congr hpeek, ← run_bind]
      exact exists_of_run_scopeParts_bind (by omega) (by rw [unread_ofText]; exact he₂) hu hrun
  obtain ⟨cs, w', hq, hcs⟩ := hfound
  refine ⟨ds ++ cs, w', ?_, by rw [List.filterMap_append, hcs]⟩
  rw [run_map, hq]
  rfl

/-- **When two texts can be put together.** A specification is followed by another one, on a
    new line. What is found is what is found in each of them, for every second text, if and
    only if the first one does not end inside a code fragment: that is, if the mode that is left
    is the ordinary one. -/
theorem ofText_append_iff {dialect : Dialect} {cs : Text} {spec : Specification}
    (hspec : Specification.ofText dialect cs = .ok spec) (hcomment : ¬"/*".toList <:+: cs)
    (hpragma : (specification.run (.ofText dialect cs)).2.lexer.pragmas.find? "prefix".toList =
      none) :
    (∀ ds more, Specification.ofText dialect ds = .ok more →
      Specification.ofText dialect (cs ++ '\n' :: ds) =
        .ok ⟨spec.definitions ++ more.definitions⟩) ↔
    (specification.run (.ofText dialect cs)).2.lexer.mode = .ordinary := by
  have hregular := (yields_specification _ (TokenStream.regular_ofText dialect cs)).1
  rw [run_specification, unread_ofText] at hpragma hregular ⊢
  rw [ofText_eq] at hspec
  rcases hrun : run (definitions (6 * cs.length + 1)) (.ofText dialect cs) with ⟨err | found, w⟩
  · rw [hrun] at hspec
    cases hspec
  rw [hrun] at hspec hpragma hregular
  cases hspec
  dsimp only at hpragma hregular ⊢
  have hlong (ds : Text) := exists_of_run_definitions (e := 6 * (cs ++ '\n' :: ds).length + 1)
    (by simp only [List.length_append]; omega)
    (extends_ofText dialect (x := '\n' :: ds) (fun c hc => (Option.some.inj hc).symm) fun _ =>
    hcomment) hrun
  constructor
  · intro h
    by_contra hmode
    have happend := h Lexer.scopedSample ⟨[]⟩ (by cases dialect <;> decide +kernel)
    rw [ofText_eq] at happend
    obtain ⟨u, u', e₁, e₂, hu, hend, he₁, he₂, heq⟩ := hlong Lexer.scopedSample
    obtain ⟨e₁, rfl⟩ : ∃ k, e₁ = k + 1 := ⟨e₁ - 1, by omega⟩
    obtain ⟨e₂, rfl⟩ : ∃ k, e₂ = k + 1 := ⟨e₂ - 1, by omega⟩
    have hfails (q : Parser (List (Option Definition)))
        (heq : run (definitions (6 * (cs ++ '\n' :: Lexer.scopedSample).length + 1))
          (.ofText dialect (cs ++ '\n' :: Lexer.scopedSample)) = run ((found ++ ·) <$> q) u')
        (hq : ∀ ds v, run q u' ≠ (.ok ds, v)) : False := by
      rw [heq, run_map] at happend
      rcases hq' : run q u' with ⟨err | ds, v⟩
      · rw [hq'] at happend
        cases happend
      · exact hq ds v hq'
    have hnone := fails_of_ne_ordinary hu hend hmode e₁ e₂
    rcases heq with heq | heq
    · exact hfails _ heq fun ds v => (hnone ds v).1
    · exact hfails _ heq fun ds v => (hnone ds v).2
  · intro hmode ds more hmore
    obtain ⟨u, u', e₁, e₂, hu, hend, he₁, he₂, heq⟩ := hlong ds
    rw [ofText_eq] at hmore ⊢
    rw [← hregular.dialect_eq] at hmore
    rcases hrun' :
      run (definitions (6 * ds.length + 1)) (.ofText w.lexer.dialect ds) with ⟨err | es, v⟩
    · rw [hrun'] at hmore
      cases hmore
    rw [hrun'] at hmore
    cases hmore
    rw [List.length_cons] at he₁ he₂
    have happend {q : Parser (List (Option Definition))}
        (hq : q = definitions e₁ ∨ q = do let _ ← scopeParts e₂; definitions e₁) :
        ∃ cs w', run ((found ++ ·) <$> q) u' = (.ok cs, w') ∧
          cs.filterMap id = found.filterMap id ++ es.filterMap id :=
      exists_of_run_append hu hend hmode hpragma hrun' (by omega) (by omega) hq
    rcases heq with heq | heq
    · obtain ⟨cs', w', hq, hcs⟩ := happend (.inl rfl)
      rw [heq, hq]
      exact congrArg (fun ds => Except.ok (Specification.mk ds)) hcs
    · obtain ⟨cs', w', hq, hcs⟩ := happend (.inr rfl)
      rw [heq, hq]
      exact congrArg (fun ds => Except.ok (Specification.mk ds)) hcs

/-- An open fragment is accepted, and then no text can be put behind it. A scope operator goes on
    with a bare name, which is none of the definitions. -/
theorem ofText_append_iff_open :
    (Specification.ofText .omg "interface A;\n%\x7b".toList = .ok
      ⟨[.interface ⟨"A".toList, [], none, none⟩]⟩ ∧
      ¬"/*".toList <:+: "interface A;\n%\x7b".toList ∧
      (specification.run (.ofText .omg "interface A;\n%\x7b".toList)).2.lexer.pragmas.find?
        "prefix".toList = none ∧
      ¬∀ ds more, Specification.ofText .omg ds = .ok more →
        Specification.ofText .omg ("interface A;\n%\x7b".toList ++ '\n' :: ds) =
          .ok ⟨[.interface ⟨"A".toList, [], none, none⟩] ++ more.definitions⟩) ∧
    Specification.ofText .omg "interface A; B".toList =
      .ok ⟨[.interface ⟨"A".toList, [], none, none⟩]⟩ ∧
      ¬"/*".toList <:+: "interface A; B".toList ∧
      (specification.run (.ofText .omg "interface A; B".toList)).2.lexer.pragmas.find?
        "prefix".toList = none ∧
      Specification.ofText .omg "::C interface D;".toList =
        .ok ⟨[.interface ⟨"D".toList, [], none, none⟩]⟩ ∧
      Specification.ofText .omg ("interface A; B".toList ++ '\n' :: "::C interface D;".toList) =
        .ok ⟨[.interface ⟨"A".toList, [], none, none⟩, .interface ⟨"D".toList, [], none,
          none⟩]⟩ := by
  have hopen : Specification.ofText .omg "interface A;\n%\x7b".toList =
      .ok ⟨[.interface ⟨"A".toList, [], none, none⟩]⟩ := by decide +kernel
  have hname : Specification.ofText .omg "interface A; B".toList =
      .ok ⟨[.interface ⟨"A".toList, [], none, none⟩]⟩ := by decide +kernel
  have hmore : Specification.ofText .omg "::C interface D;".toList =
      .ok ⟨[.interface ⟨"D".toList, [], none, none⟩]⟩ := by decide +kernel
  refine ⟨⟨hopen, by decide, by decide +kernel, ?_⟩, hname, by decide, by decide +kernel, hmore, ?_⟩
  · rw [ofText_append_iff hopen (by decide) (by decide +kernel)]
    decide +kernel
  · exact (ofText_append_iff hname (by decide) (by decide +kernel)).2 (by decide +kernel) _ _ hmore

end Parser

end IdlFrontend
