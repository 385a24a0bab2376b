import IdlFrontend.Macro.Expansion

/-!
# What expansion makes lexemes from

Expansion puts together the lexemes it is given and those of macro bodies. It
makes only three kinds of lexemes of its own: numbers for `__LINE__`, and the
commas and spaces of argument lists. All of them stand on lines that it is given.

Results:

* `expand_forall`: what holds of the lexemes given, of macro bodies and of these
  three kinds holds of every lexeme of an expansion.
* `define_forall`: what holds of a definition, and of a space, holds of the bodies
  behind it.
* `expand_eq_self`: lexemes without names to replace are their own expansion.
-/

namespace IdlFrontend

namespace Lexeme

/-- Kind and text have the property `G`, the line has the property `L`. -/
def Meets (G : LexemeKind → Text → Prop) (L : Nat → Prop) (t : Lexeme) : Prop :=
  G t.kind t.text ∧ L t.line

variable {G : LexemeKind → Text → Prop} {L : Nat → Prop}

theorem mem_of_mem_stripBlank {ts : List Lexeme} {t : Lexeme} (h : t ∈ stripBlank ts) : t ∈ ts := by
  rw [stripBlank, List.mem_reverse] at h
  have h₁ := (List.dropWhile_suffix isBlank).mem h
  rw [List.mem_reverse] at h₁
  exact (List.dropWhile_suffix isBlank).mem h₁

theorem meets_restamp {ts : List Lexeme} {line : Nat} (hG : ∀ t ∈ ts, G t.kind t.text)
    (hL : L line) : ∀ t ∈ restamp line ts, Meets G L t := by
  intro t ht
  obtain ⟨u, hu, rfl⟩ := List.mem_map.1 ht
  exact ⟨hG u hu, hL⟩

end Lexeme

/-! ## Steps that may fail -/

theorem exists_of_map_eq_ok {ε α β : Type} {r : Except ε α} {f : α → β} {b : β}
    (h : r.map f = .ok b) :
    ∃ a, r = .ok a ∧ f a = b := by
  cases r with
  | error e => cases h
  | ok a => exact ⟨a, rfl, Except.ok.inj h⟩

theorem of_map_eq_error {ε α β : Type} {r : Except ε α} {f : α → β} {e : ε}
    (h : r.map f = .error e) : r = .error e := by
  cases r with
  | error e' =>
    cases h
    rfl
  | ok a => cases h

theorem exists_of_bind_eq_ok {ε α β : Type} {r : Except ε α} {f : α → Except ε β} {b : β}
    (h : (r >>= f) = .ok b) : ∃ a, r = .ok a ∧ f a = .ok b := by
  cases r with
  | error e => cases h
  | ok a => exact ⟨a, rfl, h⟩

theorem of_bind_eq_error {ε α β : Type} {r : Except ε α} {f : α → Except ε β} {e : ε}
    (h : (r >>= f) = .error e) : r = .error e ∨ ∃ a, r = .ok a ∧ f a = .error e := by
  cases r with
  | error e' =>
    cases h
    exact .inl rfl
  | ok a => exact .inr ⟨a, rfl, h⟩

/-- Every result of a list of steps that all succeed is the result of one of them. -/
theorem exists_mem_of_mapM_eq_ok {ε α β : Type} {f : α → Except ε β} {as : List α} {bs : List β}
    (h : as.mapM f = .ok bs) : ∀ b ∈ bs, ∃ a ∈ as, f a = .ok b := by
  induction as generalizing bs with
  | nil =>
    cases h
    exact List.forall_mem_nil _
  | cons a as ih =>
    rw [List.mapM_cons] at h
    obtain ⟨b, hfirst, h⟩ := exists_of_bind_eq_ok h
    obtain ⟨bs', hmore, h⟩ := exists_of_bind_eq_ok h
    cases h
    refine List.forall_mem_cons.2 ⟨⟨a, List.mem_cons_self, hfirst⟩, fun b' hb' => ?_⟩
    obtain ⟨a', ha', heq⟩ := ih hmore b' hb'
    exact ⟨a', List.mem_cons_of_mem _ ha', heq⟩

/-- A list of steps fails as one of them does. -/
theorem exists_mem_of_mapM_eq_error {ε α β : Type} {f : α → Except ε β} {as : List α} {e : ε}
    (h : as.mapM f = .error e) : ∃ a ∈ as, f a = .error e := by
  induction as with
  | nil => cases h
  | cons a as ih =>
    rw [List.mapM_cons] at h
    rcases of_bind_eq_error h with hfirst | ⟨b, -, h⟩
    · exact ⟨a, List.mem_cons_self, hfirst⟩
    rcases of_bind_eq_error h with hmore | ⟨bs, -, h⟩
    · obtain ⟨a', ha', hfails⟩ := ih hmore
      exact ⟨a', List.mem_cons_of_mem _ ha', hfails⟩
    · cases h

namespace MacroTable

open Lexeme

variable {G : LexemeKind → Text → Prop} {L : Nat → Prop}

/-- The lexemes that expansion makes of its own have the property. -/
structure Admits (G : LexemeKind → Text → Prop) (L : Nat → Prop) : Prop where
  lineNumber {line : Nat} : L line → G .number (Text.ofNat line)
  comma : G .punctuation [',']
  space : G .space [' ']

/-! ## Arguments -/

theorem mem_of_afterOpening? {ts inner : List Lexeme} (h : afterOpening? ts = some inner) :
    ∀ t ∈ inner, t ∈ ts := by
  unfold afterOpening? at h
  intro u hu
  split at h
  next t rest heq =>
    split at h
    · cases h
      refine (List.dropWhile_suffix Lexeme.isBlank (l := ts)).mem ?_
      rw [heq]
      exact List.mem_cons_of_mem _ hu
    · cases h
  · cases h

/-- The lexemes of an argument list, and those behind it. -/
def ArgumentList.Forall (P : Lexeme → Prop) (as : ArgumentList) : Prop :=
  (∀ a ∈ as.first :: as.more, ∀ t ∈ a, P t) ∧ ∀ t ∈ as.rest, P t

theorem ArgumentList.Forall.cons {P : Lexeme → Prop} {as : ArgumentList} (h : as.Forall P)
    {t : Lexeme} (ht : P t) : (as.cons t).Forall P := by
  refine ⟨?_, h.2⟩
  have hfirst := h.1 as.first List.mem_cons_self
  intro a ha
  rcases List.mem_cons.1 ha with rfl | ha
  · exact List.forall_mem_cons.2 ⟨ht, hfirst⟩
  · exact h.1 a (List.mem_cons_of_mem _ ha)

theorem ArgumentList.Forall.consEmpty {P : Lexeme → Prop} {as : ArgumentList} (h : as.Forall P) :
    as.consEmpty.Forall P :=
  ⟨List.forall_mem_cons.2 ⟨List.forall_mem_nil _, h.1⟩, h.2⟩

theorem collectArguments_forall (hA : Admits G L) {depth : Nat} {ts : List Lexeme}
    {as : ArgumentList} (hts : ∀ t ∈ ts, Meets G L t) (h : collectArguments depth ts = some as) :
    as.Forall (Meets G L) := by
  fun_induction collectArguments depth ts generalizing as with
  | case1 => cases h
  | case2 depth t ts _ ih =>
    obtain ⟨bs, hbs, rfl⟩ := Option.map_eq_some_iff.1 h
    rw [List.forall_mem_cons] at hts
    exact (ih hts.2 hbs).cons hts.1
  | case3 t ts _ _ =>
    cases h
    rw [List.forall_mem_cons] at hts
    exact ⟨by simp, hts.2⟩
  | case4 t ts _ _ depth ih =>
    obtain ⟨bs, hbs, rfl⟩ := Option.map_eq_some_iff.1 h
    rw [List.forall_mem_cons] at hts
    exact (ih hts.2 hbs).cons hts.1
  | case5 depth t ts _ _ _ ih =>
    obtain ⟨bs, hbs, rfl⟩ := Option.map_eq_some_iff.1 h
    rw [List.forall_mem_cons] at hts
    exact (ih hts.2 hbs).consEmpty
  | case6 depth t ts _ _ _ ih =>
    obtain ⟨bs, hbs, rfl⟩ := Option.map_eq_some_iff.1 h
    rw [List.forall_mem_cons] at hts
    refine (ih hts.2 hbs).cons ?_
    split
    · exact ⟨hA.space, hts.1.2⟩
    · exact hts.1

theorem joinSurplus_forall (hA : Admits G L) {line : Nat} (hline : L line)
    {args : List (List Lexeme)} (hargs : ∀ a ∈ args, ∀ t ∈ a, Meets G L t) :
    ∀ t ∈ joinSurplus line args, Meets G L t := by
  intro t ht
  induction args with
  | nil => simp [joinSurplus] at ht
  | cons a args ih =>
    rw [List.forall_mem_cons] at hargs
    cases args with
    | nil =>
      simp only [joinSurplus, List.intercalate_singleton] at ht
      exact hargs.1 t ht
    | cons b args =>
      simp only [joinSurplus, List.intercalate_cons_cons, List.mem_append, List.mem_singleton] at ht
      rcases ht with (ht | rfl) | ht
      · exact hargs.1 t ht
      · exact ⟨hA.comma, hline⟩
      · exact ih hargs.2 ht

theorem bindArguments_forall (hA : Admits G L) {m : Macro} {args bound : List (List Lexeme)}
    {line : Nat} (hline : L line) (hargs : ∀ a ∈ args, ∀ t ∈ a, Meets G L t)
    (h : bindArguments m args line = .ok bound) : ∀ a ∈ bound, ∀ t ∈ a, Meets G L t := by
  unfold bindArguments at h
  split at h
  · cases h
    exact List.forall_mem_nil _
  · split at h
    · cases h
      exact List.forall_mem_nil _
    · split at h
      · cases h
        exact hargs
      · cases h
  next leading _ _ =>
    split at h
    · cases h
    · cases h
      intro a ha
      rcases List.mem_append.1 ha with ha | ha
      · exact hargs a (List.mem_of_mem_take ha)
      · cases List.mem_singleton.1 ha
        exact joinSurplus_forall hA hline fun b hb => hargs b (List.mem_of_mem_drop hb)

theorem substitute_forall {m : Macro} {args : List (List Lexeme)} {line : Nat} (hline : L line)
    (hbody : ∀ t ∈ m.body, G t.kind t.text) (hargs : ∀ a ∈ args, ∀ t ∈ a, G t.kind t.text) :
    ∀ t ∈ substitute m args line, Meets G L t := by
  intro t ht
  obtain ⟨u, hu, ht⟩ := List.mem_flatMap.1 ht
  split at ht
  next arg harg =>
    refine meets_restamp ?_ hline t ht
    split at harg
    · have hmem := (List.lookup_eq_some_iff.1 harg)
      obtain ⟨l₁, l₂, heq, _⟩ := hmem
      have : arg ∈ args := by
        have : (u.text, arg) ∈ m.parameters.names.zip args := by rw [heq]; simp
        exact (List.of_mem_zip this).2
      exact hargs arg this
    · cases harg
  next =>
    cases List.mem_singleton.1 ht
    exact ⟨hbody u hu, hline⟩

/-! ## Expansion -/

theorem mem_of_find? {table : MacroTable} {name : Text} {m : Macro}
    (h : table.find? name = some m) : m ∈ table.macros := List.mem_of_find?_eq_some h

theorem name_of_find? {table : MacroTable} {name : Text} {m : Macro}
    (h : table.find? name = some m) : m.name = name := by
  have hname := List.find?_some h
  exact beq_iff_eq.1 hname

/-- The bodies of the macros whose names have the property consist of lexemes that have
    it. The other macros are out of reach of such lexemes. -/
def BodiesMeet (G : LexemeKind → Text → Prop) (table : MacroTable) : Prop :=
  ∀ m ∈ table.macros, G .word m.name → ∀ t ∈ m.body, G t.kind t.text

theorem BodiesMeet.body {table : MacroTable} (htable : table.BodiesMeet G) {hidden : List Text}
    {t : Lexeme} {m : Macro} (ht : Meets G L t) (hseen : ¬(t.kind ≠ .word ∨ t.text ∈ hidden))
    (hfind : table.find? t.text = some m) : ∀ u ∈ m.body, G u.kind u.text := by
  have hword : t.kind = .word := Decidable.not_not.1 (not_or.1 hseen).1
  refine htable m (mem_of_find? hfind) ?_
  rw [name_of_find? hfind, ← hword]
  exact ht.1

/-- The arguments of an invocation, and what follows it. -/
theorem invocation_forall (hA : Admits G L) {m : Macro} {ts inner : List Lexeme}
    {args : ArgumentList} {bound : List (List Lexeme)} {line : Nat} (hline : L line)
    (hts : ∀ t ∈ ts, Meets G L t) (hinner : afterOpening? ts = some inner)
    (hargs : collectArguments 0 inner = some args)
    (hbound : bindArguments m args.values line = .ok bound) :
    (∀ a ∈ bound, ∀ t ∈ a, Meets G L t) ∧ ∀ t ∈ args.rest, Meets G L t := by
  have hin : ∀ t ∈ inner, Meets G L t := fun t ht => hts t (mem_of_afterOpening? hinner t ht)
  have hlist := collectArguments_forall hA hin hargs
  have hvalues : ∀ a ∈ args.values, ∀ t ∈ a, Meets G L t := by
    intro a ha t ht
    obtain ⟨b, hb, rfl⟩ := List.mem_map.1 ha
    exact hlist.1 b hb t (mem_of_mem_stripBlank ht)
  exact ⟨bindArguments_forall hA hline hvalues hbound, hlist.2⟩

theorem forall_of_map_append {ε : Type} {P : Lexeme → Prop} {first us : List Lexeme}
    {r : Except ε (List Lexeme)} (hfirst : ∀ t ∈ first, P t)
    (hrest : ∀ {vs : List Lexeme}, r = .ok vs → ∀ v ∈ vs, P v)
    (h : r.map (first ++ ·) = .ok us) : ∀ u ∈ us, P u := by
  cases r with
  | error e => cases h
  | ok vs =>
    cases h
    exact List.forall_mem_append.2 ⟨hfirst, hrest rfl⟩

theorem sweep_forall (hA : Admits G L) {table : MacroTable} {hidden : List Text}
    {rescan : Text → List Lexeme → Except PreprocessError (List Lexeme)}
    (htable : table.BodiesMeet G)
    (hrescan : ∀ name body us, (∀ t ∈ body, Meets G L t) → rescan name body = .ok us →
      ∀ u ∈ us, Meets G L u)
    {ts us : List Lexeme} (hts : ∀ t ∈ ts, Meets G L t)
    (h : sweep table hidden rescan ts = .ok us) : ∀ u ∈ us, Meets G L u := by
  have hkeep {t : Lexeme} (ht : Meets G L t) : ∀ u ∈ [t], Meets G L u :=
    List.forall_mem_singleton.2 ht
  fun_induction sweep table hidden rescan ts generalizing us
  case case1 =>
    cases h
    exact List.forall_mem_nil _
  case case2 t ts _ _ ih | case4 t ts _ _ _ _ ih | case7 t ts _ _ _ _ _ _ ih =>
    rw [List.forall_mem_cons] at hts
    exact forall_of_map_append (hkeep hts.1) (ih hts.2) h
  case case3 t ts _ _ _ _ ih =>
    rw [List.forall_mem_cons] at hts
    have hnumber : Meets G L ⟨.number, Text.ofNat t.line, t.line⟩ :=
      ⟨hA.lineNumber hts.1.2, hts.1.2⟩
    exact forall_of_map_append (hkeep hnumber) (ih hts.2) h
  case case6 t ts hseen m hfind _ body hbody ih =>
    rw [List.forall_mem_cons] at hts
    refine forall_of_map_append ?_ (ih hts.2) h
    exact hrescan _ _ _ (meets_restamp (htable.body hts.1 hseen hfind) hts.1.2) hbody
  case case12 t ts hseen m hfind _ inner hinner args hargs bound hbound expanded hexpanded
    body hbody
      _ ihargs ihrest =>
    rw [List.forall_mem_cons] at hts
    obtain ⟨hbounds, hrest⟩ := invocation_forall hA hts.1.2 hts.2 hinner hargs hbound
    have hexpansions : ∀ e ∈ expanded, ∀ u ∈ e, Meets G L u := by
      intro e he
      obtain ⟨a, _, ha⟩ := exists_mem_of_mapM_eq_ok hexpanded e he
      exact ihargs a (hbounds a.1 a.2) ha
    refine forall_of_map_append ?_ (ihrest hrest) h
    refine hrescan _ _ _ (substitute_forall hts.1.2 (htable.body hts.1 hseen hfind) ?_) hbody
    exact fun e he u hu => (hexpansions e he u hu).1
  all_goals cases h

theorem expandHiding_forall (hA : Admits G L) {table : MacroTable} (htable : table.BodiesMeet G)
    {levels : Nat} {hidden : List Text} {ts us : List Lexeme} (hts : ∀ t ∈ ts, Meets G L t)
    (h : expandHiding table levels hidden ts = .ok us) : ∀ u ∈ us, Meets G L u := by
  induction levels generalizing hidden ts us with
  | zero =>
    refine sweep_forall hA htable ?_ hts h
    intro name body vs hbody hvs
    cases hvs
    exact hbody
  | succ levels ih =>
    exact sweep_forall hA htable (fun name body vs hbody hvs => ih hbody hvs) hts h

theorem expand_forall (hA : Admits G L) {table : MacroTable}
    (htable : ∀ m ∈ table.macros, ∀ t ∈ m.body, G t.kind t.text) {ts us : List Lexeme}
    (hts : ∀ t ∈ ts, Meets G L t) (h : table.expand ts = .ok us) : ∀ u ∈ us, Meets G L u :=
  expandHiding_forall hA (fun m hm _ => htable m hm) hts h

/-! ## Definitions -/

theorem mem_of_afterClosing? {ts rest : List Lexeme} (h : afterClosing? ts = some rest) :
    ∀ t ∈ rest, t ∈ ts := by
  unfold afterClosing? at h
  intro u hu
  split at h
  next t after heq =>
    split at h
    · cases h
      refine (List.dropWhile_suffix Lexeme.isBlank (l := ts)).mem ?_
      rw [heq]
      exact List.mem_cons_of_mem _ hu
    · cases h
  · cases h

theorem mem_of_afterEllipsis? {ts rest : List Lexeme} (h : afterEllipsis? ts = some rest) :
    ∀ t ∈ rest, t ∈ ts := by
  unfold afterEllipsis? at h
  intro u hu
  split at h
  · split at h
    · cases h
      exact List.mem_cons_of_mem _ (List.mem_cons_of_mem _ (List.mem_cons_of_mem _ hu))
    · cases h
  · cases h

theorem mem_of_readParameters {names : List Text} {last : Option Text} {ts body : List Lexeme}
    {parameters : Parameters} (h : readParameters names last ts = some (parameters, body)) :
    ∀ t ∈ body, t ∈ ts := by
  intro u hu
  fun_induction readParameters names last ts with
  | case1 => cases h
  | case2 _ _ _ _ _ ih => exact List.mem_cons_of_mem _ (ih h)
  | case3 | case4 =>
    cases h
    exact List.mem_cons_of_mem _ hu
  | case6 _ _ t ts _ _ rest hrest =>
    obtain ⟨after, hafter, heq⟩ := Option.map_eq_some_iff.1 h
    cases heq
    exact mem_of_afterEllipsis? hrest u (mem_of_afterClosing? hafter u hu)
  | case7 _ _ _ _ _ _ _ ih => exact List.mem_cons_of_mem _ (ih h)
  | case9 _ _ _ _ _ _ _ _ ih => exact List.mem_cons_of_mem _ (ih h)
  | case5 | case8 | case10 => cases h

theorem bodyLexeme_of_space (hspace : G .space [' ']) {t : Lexeme} (h : G t.kind t.text) :
    G (bodyLexeme t).kind (bodyLexeme t).text := by
  unfold bodyLexeme
  split
  · exact hspace
  · exact h

/-- A definition stores lexemes it is given as the body of a macro, comments and line
    feeds as spaces. -/
theorem define_forall (hspace : G .space [' ']) {table table' : MacroTable} {args : List Lexeme}
    {line : Nat} (htable : ∀ m ∈ table.macros, ∀ t ∈ m.body, G t.kind t.text)
    (hargs : ∀ t ∈ args, G t.kind t.text) (h : table.define args line = .ok table') :
    ∀ m ∈ table'.macros, ∀ t ∈ m.body, G t.kind t.text := by
  have hstore (name : Text) (parameters : Parameters) {body : List Lexeme}
      (hbody : ∀ t ∈ body, t ∈ args) :
      ∀ m ∈ (table.insert ⟨name, parameters, (stripBlank body).map bodyLexeme⟩).macros,
        ∀ t ∈ m.body, G t.kind t.text := by
    refine List.forall_mem_cons.2 ⟨fun t ht => ?_, fun m hm => htable m (List.mem_filter.1 hm).1⟩
    obtain ⟨u, hu, rfl⟩ := List.mem_map.1 ht
    exact bodyLexeme_of_space hspace (hargs u (hbody u (mem_of_mem_stripBlank hu)))
  unfold define at h
  split at h
  · cases h
  next name rest heq =>
    have hrest : ∀ t ∈ rest, t ∈ args := fun t ht =>
      mem_of_mem_stripBlank (by rw [heq]; exact List.mem_cons_of_mem _ ht)
    split at h
    · cases h
    · dsimp only at h
      split at h
      · cases h
        exact hstore _ _ (List.forall_mem_nil _)
      next t ts =>
        split at h
        · split at h
          next parameters body hread =>
            cases h
            exact hstore _ _ fun u hu =>
              hrest u (List.mem_cons_of_mem _ (mem_of_readParameters hread u hu))
          · cases h
        · cases h
          exact hstore _ _ hrest

/-! ## Lexemes that expansion leaves alone -/

theorem expand_eq_self {table : MacroTable} {ts : List Lexeme}
    (h : ∀ t ∈ ts, t.kind = .word → table.find? t.text = none ∧ t.text ≠ "__LINE__".toList) :
    table.expand ts = .ok ts := by
  have hsweep (rescan : Text → List Lexeme → Except PreprocessError (List Lexeme)) :
      sweep table [] rescan ts = .ok ts := by
    induction ts with
    | nil => rw [sweep]
    | cons t ts ih =>
      rw [List.forall_mem_cons] at h
      rw [sweep, ih h.2]
      by_cases hword : t.kind = .word
      · obtain ⟨hfind, hline⟩ := h.1 hword
        rw [if_neg (not_or.2 ⟨not_not_intro hword, List.not_mem_nil⟩)]
        simp only [hfind]
        rw [if_neg hline]
        rfl
      · rw [if_pos (Or.inl hword)]
        rfl
  unfold expand
  cases table.macros.length with
  | zero => exact hsweep _
  | succ levels => exact hsweep _

end MacroTable

end IdlFrontend
