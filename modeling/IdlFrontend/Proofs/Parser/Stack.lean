import IdlFrontend.Proofs.Parser.Append
import IdlFrontend.Proofs.Parser.Behaviour
import IdlFrontend.Proofs.Parser.Returns

/-!
# The stack of modes throughout a parse

The lexer reads ahead of the parser, so the mode that it is in is known only together with the
token that is ahead. Between two definitions it is the mode that belongs to that token, or an
outer one if there is no token. A specification that is read ends there, with nothing left to
read, but a code fragment may be open.

Results:

* `maintains_definition`: from one place between two definitions to the next one.
* `specification_stack`: the stack of modes throughout the parse of a specification.
-/

namespace IdlFrontend.Parser

variable {α β ι : Type} {p : Parser α} {s u : TokenStream} {t : Token} {cs : Text}

/-! ## Between definitions -/

/-- The text is over. The ordinary mode is left, unless the text ends in an open code fragment. -/
structure Finished (cs : Text) (s : TokenStream) : Prop where
  ahead : s.ahead = none
  rest : s.lexer.rest = []
  stack : s.lexer.stack = [.ordinary] ∧ ¬Lexer.OpenFragment cs s.lexer ∨
    s.lexer.stack = [.ordinary, .fragment] ∧ Lexer.OpenFragment cs s.lexer

/-- A stream between two definitions, or in front of a token that comes there: the lexer is in the
    mode that belongs to this token. -/
structure Settled (cs : Text) (s : TokenStream) : Prop where
  orderly : Orderly cs s
  mode : ∀ t, s.ahead = some t → s.lexer.mode = Lexer.outerMode t.kind
  outer : s.ahead = none → s.lexer.mode ∈ [.ordinary, .fragmentEnd] ∨ Finished cs s

theorem settled_ofText (dialect : Dialect) (cs : Text) : Settled cs (.ofText dialect cs) :=
  ⟨orderly_ofText dialect cs, nofun, fun _ => .inl List.mem_cons_self⟩

theorem Orderly.finished (hs : Orderly cs s) (hahead : s.ahead = none) (hrest : s.lexer.rest = [])
    (hmode : s.lexer.mode = .ordinary ∨ s.lexer.mode = .fragment ∧ Lexer.OpenFragment cs s.lexer) :
    Finished cs s := by
  refine ⟨hahead, hrest, hmode.imp (fun hm => ⟨?_, fun hopen => ?_⟩) fun ⟨hm, hopen⟩ => ⟨?_, hopen⟩⟩
  · exact Lexer.stack_eq_singleton_iff.2 ⟨hm, hs.lawful.below_eq_nil hm⟩
  · cases hm.symm.trans hopen.mode_eq
  · exact Lexer.stack_eq_pair_iff.2 ⟨hm, hs.lawful.below_of_ne (by rw [hm]; decide)⟩

/-- The next token between two definitions, or the end of the text. -/
theorem settled_of_peek? {t? : Option Token} (hs : Settled cs s) (h : run peek? s = (.ok t?, u)) :
    Settled cs u ∧ (t? = none → Finished cs u) := by
  have hu := hs.orderly.of_run h
  cases hahead : s.ahead with
  | some t =>
    rw [run_peek?_of_ahead hahead] at h
    cases h
    exact ⟨hs, nofun⟩
  | none =>
    rcases hs.outer hahead with hmode | hfinished
    · rw [run_peek?, hahead] at h
      have hcall := Lexer.call_next s.lexer
      rcases hnext : s.lexer.next with ⟨e | next?, l⟩
      · rw [hnext] at h
        cases h
      · rw [hnext] at h hcall
        cases h
        obtain ⟨hne, houter⟩ : s.lexer.mode ≠ .fragment ∧ s.lexer.mode ∈ Lexer.outerModes := by
          revert hmode
          cases s.lexer.mode <;> decide
        have hlawful := hs.orderly.lawful
        obtain ⟨htoken, hend⟩ := Lexer.outer_of_call hcall hlawful houter
        have hfinished (hnone : t? = none) : Finished cs { s with lexer := l, ahead := t? } := by
          subst hnone
          obtain ⟨hrest, hmode⟩ := hend rfl
          refine hu.finished rfl hrest (hmode.imp_right fun hm => ⟨hm, ?_⟩)
          exact (Lexer.openFragment_of_call hcall hlawful houter hne hm).mono hs.orderly.rest
        exact ⟨⟨hu, htoken, fun hnone => .inr (hfinished hnone)⟩, hfinished⟩
    · rw [run_peek?_of_rest_eq_nil hahead hfinished.rest] at h
      cases h
      exact ⟨hs, fun _ => hfinished⟩

theorem settled_afterTake (hs : Settled cs s) (hahead : s.ahead = some t)
    (ht : t.kind ≠ .keyword .native) :
    Settled cs (afterTake t s) := by
  refine ⟨orderly_afterTake t hs.orderly, nofun, fun _ => .inl ?_⟩
  rw [show (afterTake t s).lexer.mode = _ from hs.mode t hahead]
  by_cases hfragment : t.kind = .fragment
  · rw [hfragment]
    decide
  · rw [Lexer.outerMode_of_ne ht hfragment]
    decide

/-- Behind a bracket or a semicolon, wherever it stands. -/
theorem Orderly.settled_afterTake (hs : Orderly cs s) (hahead : s.ahead = some t)
    (ht : Lexer.knownMode? t.kind = some .ordinary) : Settled cs (afterTake t s) := by
  refine ⟨orderly_afterTake t hs, nofun, fun _ => .inl ?_⟩
  rw [show (afterTake t s).lexer.mode = _ from hs.mode t hahead _ ht]
  decide

/-! ## Parsers that end between definitions -/

/-- Where the parser succeeds, the place behind it is one between definitions. -/
def Settles (cs : Text) (p : Parser α) : Prop :=
  ∀ s a u, Orderly cs s → p.run s = (.ok a, u) → Settled cs u

theorem Settles.maintains (hp : Settles cs p) : Maintains (Settled cs) p :=
  fun s a u hs hrun => ⟨hp s a u hs.orderly hrun, trivial⟩

theorem Settles.bind [Behaves cs p] {f : α → Parser β} (hf : ∀ a, Settles cs (f a)) :
    Settles cs (p >>= f) := by
  intro s b u hs hrun
  obtain ⟨a, t, hp, hrest⟩ := exists_of_run_bind hrun
  exact hf a t b u (hs.of_run hp) hrest

theorem settles_of_fails (h : p.Fails) : Settles cs p := fun _ _ _ _ hrun => absurd hrun (h _ _ _)

theorem settles_expectPunct_bind {mark : Punct} {place : String} (a : α)
    (hmark : Lexer.knownMode? (.punct mark) = some .ordinary) :
    Settles cs (do expectPunct mark place; return a) := by
  intro s b u hs hrun
  obtain ⟨_, v, hexpect, hend⟩ := exists_of_run_bind hrun
  rw [run_pure] at hend
  cases hend
  obtain ⟨t, v, hpeek, hkind, rfl⟩ := exists_of_run_expectPunct hexpect
  exact (hs.of_run hpeek).settled_afterTake (ahead_of_run_peek? hpeek) (by rw [hkind]; exact hmark)

theorem settles_ended (d : Definition) : Settles cs (ended d) := settles_expectPunct_bind _ rfl

theorem cases_of_run_acceptPunct {mark : Punct} {b : Bool}
    (h : run (acceptPunct mark) s = (.ok b, u)) :
    (b = true ∧ ∃ t v, run peek? s = (.ok (some t), v) ∧ t.kind = .punct mark ∧ u = afterTake t v) ∨
      (b = false ∧ ∃ t?, run peek? s = (.ok t?, u)) := by
  rw [run_acceptPunct] at h
  rcases hpeek : run peek? s with ⟨e | t?, v⟩
  · rw [hpeek] at h
    cases h
  rw [hpeek] at h
  cases t? with
  | none =>
    cases h
    exact .inr ⟨rfl, none, rfl⟩
  | some t =>
    dsimp only at h
    split at h
    next hkind =>
      cases h
      exact .inl ⟨rfl, t, v, rfl, hkind, rfl⟩
    · cases h
      exact .inr ⟨rfl, some t, rfl⟩

theorem settles_recurse {body : (ι → Parser α) → ι → Parser α}
    (hbody : ∀ more, (∀ j, Settles cs (more j)) → ∀ i, Settles cs (body more i)) (i : ι) :
    Settles cs (recurse body i) := by
  have hunfold (depth : Nat) (i : ι) : Settles cs (unfold body depth i) := by
    induction depth generalizing i with
    | zero => exact settles_of_fails fails_failAtEnd
    | succ depth ih => exact hbody _ ih i
  exact fun s a u hs hrun => hunfold (s.unread + 1) i s a u hs hrun

/-- A property list is closed by a bracket. -/
theorem settles_propertiesAfter (before : List Property) : Settles cs (propertiesAfter before) := by
  rw [propertiesAfter]
  refine settles_recurse (fun more hmore before => ?_) before
  intro s a u hs hrun
  obtain ⟨b, v, haccept, hrest⟩ := exists_of_run_bind hrun
  rcases cases_of_run_acceptPunct haccept with ⟨rfl, t, w, hpeek, hkind, rfl⟩ | ⟨rfl, t?, hpeek⟩
  · cases hrest
    exact (hs.of_run hpeek).settled_afterTake (ahead_of_run_peek? hpeek) (by rw [hkind]; rfl)
  · have hproperty (ps : List Property) : Settles cs (do
        if ← acceptPunct .comma then more ps
        else
          expectPunct .closeBracket "to close property list"
          return ps) := by
      refine .bind fun b => ?_
      split
      · exact hmore ps
      · exact settles_expectPunct_bind ps rfl
    have hafter : Settles cs (do
        let key ← identifier "for property name"
        let value ← propertyValue?
        if before.any (·.key == key) then fail (.repeatedProperty key)
        let properties := before ++ [⟨key, value⟩]
        if ← acceptPunct .comma then more properties
        else
          expectPunct .closeBracket "to close property list"
          return properties) := by
      refine .bind fun key => .bind fun value => ?_
      dsimp only
      split
      · exact settles_of_fails (fails_fail _).bind
      · exact hproperty _
    exact hafter v a u (hs.of_run hpeek) hrest

theorem settles_propertyList (before : List Property) : Settles cs (propertyList before) := by
  intro s a u hs hrun
  obtain ⟨_, v, hexpect, hrest⟩ := exists_of_run_bind hrun
  obtain ⟨t, v, hpeek, hkind, rfl⟩ := exists_of_run_expectPunct hexpect
  have hv := hs.of_run hpeek
  obtain ⟨_, -, -, hpushed⟩ :=
    behavesAt_push hv (ahead_of_run_peek? hpeek) hkind (orderly_afterTake t hv)
  exact settles_propertiesAfter before _ a u hpushed hrest

/-! ## Parsers from there on -/

theorem maintains_peek? : Maintains (Settled cs) peek? :=
  fun _ _ _ hs hrun => ⟨(settled_of_peek? hs hrun).1, trivial⟩

theorem maintains_peek : Maintains (Settled cs) peek :=
  fun _ _ _ hs hrun => maintains_peek? _ _ _ hs (run_peek?_of_peek hrun)

theorem maintains_kind? : Maintains (Settled cs) kind? :=
  maintains_peek?.bind fun _ _ => returns_pure trivial

theorem maintains_isNext (kind : TokenKind) : Maintains (Settled cs) (isNext kind) :=
  maintains_kind?.bind fun _ _ => returns_pure trivial

theorem maintains_acceptPunct (mark : Punct) : Maintains (Settled cs) (acceptPunct mark) := by
  intro s b u hs hrun
  refine ⟨?_, trivial⟩
  rcases cases_of_run_acceptPunct hrun with ⟨-, t, v, hpeek, hkind, rfl⟩ | ⟨-, t?, hpeek⟩
  · exact settled_afterTake (settled_of_peek? hs hpeek).1 (ahead_of_run_peek? hpeek)
      (by rw [hkind]; nofun)
  · exact (settled_of_peek? hs hpeek).1

theorem maintains_identifier (place : String) : Maintains (Settled cs) (identifier place) := by
  refine Returns.bind (P := fun _ => True) (fun s t u hs hrun => ⟨?_, trivial⟩) fun _ _ =>
    returns_pure trivial
  obtain ⟨v, hpeek, hkind, rfl⟩ := exists_of_run_expect hrun
  exact settled_afterTake (settled_of_peek? hs hpeek).1 (ahead_of_run_peek? hpeek)
    (by rw [hkind]; nofun)

/-- The token that is taken is known from what was looked at. -/
theorem settled_of_run_take {v : TokenStream} (hs : Settled cs s) (hahead : s.ahead = some t)
    (ht : t.kind ≠ .keyword .native) {a : Token} (hrun : run take s = (.ok a, v)) :
    Settled cs v := by
  rw [run_take, run_peek?_of_ahead hahead] at hrun
  cases hrun
  exact settled_afterTake hs hahead ht

theorem maintains_isNext_take {kind : TokenKind} {f : Token → Parser α}
    (hkind : kind ≠ .keyword .native) (hf : ∀ t, Maintains (Settled cs) (f t))
    (hp : Maintains (Settled cs) p) :
    Maintains (Settled cs) (do if ← isNext kind then f (← take) else p) := by
  rw [isNext_take_eq]
  intro s a u hs hrun
  obtain ⟨t?, v, hpeek, hrest⟩ := exists_of_run_bind hrun
  have hv := (settled_of_peek? hs hpeek).1
  cases t? with
  | none => exact hp v a u hv hrest
  | some t =>
    dsimp only at hrest
    split at hrest
    next ht => exact hf t _ a u (settled_afterTake hv (ahead_of_run_peek? hpeek) (ht ▸ hkind)) hrest
    · exact hp v a u hv hrest

theorem maintains_scopedName : Maintains (Settled cs) scopedName := by
  refine (maintains_acceptPunct _).bind fun _ _ => (maintains_identifier _).bind fun _ _ => ?_
  refine (returns_many (P := fun _ => True) ?_).bind fun _ _ => returns_pure trivial
  refine (maintains_acceptPunct _).bind fun _ _ => returns_ite (fun _ => ?_) fun _ => ?_
  · exact (maintains_identifier _).bind fun _ _ => returns_pure fun _ _ => trivial
  · exact returns_pure fun _ _ => trivial

theorem maintains_lead : Maintains (Settled cs) lead := by
  rw [lead]
  refine returns_recurse (J := fun _ => True) (fun more hmore l _ => ?_) trivial
  refine (maintains_isNext _).bind fun _ _ => returns_ite (fun _ => ?_) fun _ => ?_
  · exact (settles_propertyList _).maintains.bind fun _ _ => hmore _ trivial
  intro s a u hs hrun
  obtain ⟨kind?, v, hkind, hrest⟩ := exists_of_run_bind hrun
  obtain ⟨t?, v, hpeek, hpure⟩ := exists_of_run_bind hkind
  cases hpure
  have hv := (settled_of_peek? hs hpeek).1
  cases t? with
  | none =>
    cases hrest
    exact ⟨hv, trivial⟩
  | some t =>
    cases hmodifier : modifier? t.kind with
    | none =>
      simp only [Option.map_some, Option.bind_some, hmodifier, run_pure] at hrest
      cases hrest
      exact ⟨hv, trivial⟩
    | some m =>
      have hne : t.kind ≠ .keyword .native := by
        intro hkind
        rw [hkind] at hmodifier
        cases hmodifier
      simp only [Option.map_some, Option.bind_some, hmodifier] at hrest
      split at hrest
      · exact absurd hrest ((fails_fail _).bind _ _ _)
      · obtain ⟨_, w, htake, hmore'⟩ := exists_of_run_bind hrest
        exact hmore _ trivial w a u (settled_of_run_take hv (ahead_of_run_peek? hpeek) hne
          htake) hmore'

theorem maintains_bare? (l : Lead) : Maintains (Settled cs) (bare? l) := by
  refine returns_ite (fun _ => returns_pure trivial) fun _ => ?_
  refine (maintains_acceptPunct _).bind fun _ _ => returns_ite (fun _ => returns_pure trivial)
    fun _ => ?_
  exact maintains_isNext_take nofun (fun _ => returns_pure trivial) (returns_pure trivial)

/-! ## Definitions -/

theorem settles_interfaceOrDeclaration (l : Lead) : Settles cs (interfaceOrDeclaration l) := by
  refine .bind fun _ => ?_
  split
  · exact .bind fun _ => settles_ended _
  · refine .bind fun d? => ?_
    split
    · exact settles_ended _
    · exact settles_of_fails (fails_unexpected _)

/-- Every definition but a bare name, a lone semicolon and a fragment ends with a semicolon. -/
theorem maintains_afterLead {definition : Parser (Option Definition)} [Behaves cs definition]
    (l : Lead) (t : Token) : Maintains (Settled cs) (afterLead definition l t) := by
  have hlast : Maintains (Settled cs) (interfaceOrDeclaration l) :=
    (settles_interfaceOrDeclaration l).maintains
  refine (maintains_bare? l).bind fun d? _ => ?_
  split
  · exact returns_pure trivial
  · split
    · dsimp only
      split
      · exact Settles.maintains (.bind fun m => settles_expectPunct_bind _ rfl)
      · exact maintains_scopedName.bind fun _ _ => returns_pure trivial
      · exact maintains_scopedName.bind fun _ _ => returns_pure trivial
      · exact hlast
    · exact hlast

/-- From one place between two definitions to the next one. -/
theorem maintains_definition : Maintains (Settled cs) definition := by
  intro s d u hs hrun
  rw [definition, run_recurse] at hrun
  have hnested : Behaves cs (unfold definitionRound s.unread ()) :=
    behaves_unfold (fun _ _ _ => inferInstance) s.unread ()
  have hround : Maintains (Settled cs) (definitionRound (unfold definitionRound s.unread) ()) :=
    maintains_lead.bind fun l _ => maintains_peek.bind fun t _ => maintains_afterLead l t
  exact hround s d u hs hrun

/-- Definitions are read to the end of the text. -/
theorem finished_of_run_definitions {depth : Nat} {ds : List (Option Definition)}
    (hs : Settled cs s) (h : run (definitions depth) s = (.ok ds, u)) : Finished cs u := by
  induction depth generalizing s ds with
  | zero => exact absurd h (fails_failAtEnd _ _ _)
  | succ depth ih =>
    rw [run_definitions] at h
    rcases hpeek : run peek? s with ⟨e | t?, v⟩
    · rw [hpeek] at h
      cases h
    rw [hpeek] at h
    obtain ⟨hv, hfinished⟩ := settled_of_peek? hs hpeek
    cases t? with
    | none =>
      cases h
      exact hfinished rfl
    | some t =>
      obtain ⟨d, w, hdefinition, hmore⟩ := exists_of_run_bind h
      obtain ⟨more, hmore, -⟩ := exists_of_run_map hmore
      exact ih (maintains_definition v d w hv hdefinition).1 hmore

/-! ## Whole texts -/

/-- **The stack of modes throughout a parse.** Whatever comes of the text, the parser calls the
    lexer and changes its stream by a sequence of acts, and at all times at most one mode is open
    above the ordinary one. It enters the mode of property lists directly behind their opening
    bracket, from the ordinary mode. If a specification is found, nothing is left to read, and the
    ordinary mode is left, unless the text ends in a code fragment that is not closed. -/
theorem specification_stack (dialect : Dialect) (cs : Text) :
    ∃ ms, Executes specification (.ofText dialect cs) ms (specification.run (.ofText dialect cs)) ∧
      History (.ofText dialect cs) ms (specification.run (.ofText dialect cs)).2 ∧
      (∀ m ∈ ms, m.Right cs) ∧
      ∀ spec u, specification.run (.ofText dialect cs) = (.ok spec, u) → Finished cs u := by
  obtain ⟨ms, hexec, hright, -⟩ :=
    behaves_specification.behavesAt (.ofText dialect cs) (orderly_ofText dialect cs)
  refine ⟨ms, hexec, hexec.history, hright, fun spec u hrun => ?_⟩
  rw [run_specification] at hrun
  rcases hds : run (definitions _) (.ofText dialect cs) with ⟨e | ds, v⟩
  · rw [hds] at hrun
    cases hrun
  · rw [hds] at hrun
    cases hrun
    exact finished_of_run_definitions (settled_ofText dialect cs) hds

/-- Behind a property list and a native type the ordinary mode is left, but not behind the mark of
    an open fragment. -/
theorem specification_stack_open :
    (∃ spec u, specification.run (.ofText .omg "[p] native N (r);".toList) = (.ok spec, u) ∧
      Finished "[p] native N (r);".toList u ∧ u.lexer.stack = [.ordinary]) ∧
    ∃ spec u, specification.run (.ofText .omg "%\x7b".toList) = (.ok spec, u) ∧
      Finished "%\x7b".toList u ∧ u.lexer.stack = [.ordinary, .fragment] := by
  have hfinished {cs : Text} {spec : Specification}
      (h : (specification.run (.ofText .omg cs)).1 = .ok spec) :
      Finished cs (specification.run (.ofText .omg cs)).2 := by
    obtain ⟨ms, -, -, -, hend⟩ := specification_stack .omg cs
    exact hend spec _ (Prod.ext h rfl)
  have hnative : (specification.run (.ofText .omg "[p] native N (r);".toList)).1 =
      .ok ⟨[.native ⟨"N".toList, some "r".toList, [⟨"p".toList, none⟩]⟩]⟩ := by decide +kernel
  have hopen : (specification.run (.ofText .omg "%\x7b".toList)).1 = .ok ⟨[]⟩ := by decide +kernel
  exact ⟨⟨_, _, Prod.ext hnative rfl, hfinished hnative, by decide +kernel⟩,
    _, _, Prod.ext hopen rfl, hfinished hopen, by decide +kernel⟩

end IdlFrontend.Parser
