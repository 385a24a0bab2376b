import IdlFrontend.Proofs.Lexer.Pragmas
import IdlFrontend.Proofs.Lexer.Regular
import IdlFrontend.Proofs.Parser.Returns
import IdlFrontend.Frontend

/-!
# Names without line breaks

An identifier is a word, and a pragma is read from one line. So no name that is read holds the
end of a line, nor does the prefix of a module.

Results:

* `inlineCourse`: parsers keep a stream whose words and pragmas are inline.
* `inline_of_moduleHead`, `returns_identifier`, `returns_scopedName`: names.
-/

namespace IdlFrontend

open Pattern (isInline)

/-! ## Texts -/

/-- No character ends a line. -/
def Text.Inline (cs : Text) : Prop := ∀ c ∈ cs, isInline c

namespace Text

theorem inline_nil : Inline [] := List.forall_mem_nil _

theorem inline_cons {c : Char} {cs : Text} : Inline (c :: cs) ↔ isInline c ∧ Inline cs :=
  List.forall_mem_cons

theorem Inline.append {cs ds : Text} (hcs : cs.Inline) (hds : ds.Inline) : Text.Inline (cs ++ ds) :=
  List.forall_mem_append.2 ⟨hcs, hds⟩

theorem Inline.subset {cs ds : Text} (h : ds.Inline) (hsub : cs ⊆ ds) :
    cs.Inline := fun c hc => h c (hsub hc)

theorem Inline.join {separator : Text} (hseparator : separator.Inline) {parts : List Text}
    (h : ∀ cs ∈ parts, cs.Inline) : (Text.join separator parts).Inline := by
  induction parts with
  | nil => exact inline_nil
  | cons cs parts ih =>
    obtain ⟨hcs, hparts⟩ := List.forall_mem_cons.1 h
    cases parts with
    | nil => simpa [Text.join, List.intercalate] using hcs
    | cons ds parts =>
      have hjoin : Text.join separator (cs :: ds :: parts) =
          cs ++ (separator ++ Text.join separator (ds :: parts)) := by
        simp [Text.join, List.intercalate]
      rw [hjoin]
      exact hcs.append (hseparator.append (ih hparts))

/-- A text of the program itself. -/
theorem inline_of_all {cs : Text} (h : cs.all isInline) : cs.Inline := List.all_eq_true.1 h

end Text

/-! ## Streams -/

namespace Lexer

variable {l : Lexer} {s : Step}

theorem inline_of_step? (h : l.step? = some s) {t : Token} (ht : s.token? = some t)
    (hword : t.IsWord) : t.text.Inline := by
  obtain ⟨n, r, hmatch, rfl⟩ := step?_eq_some_iff.1 h
  obtain ⟨hr, hlen⟩ := Rule.longestMatch_mem hmatch
  rw [Rule.length?, pattern_of_isWord hr ht hword] at hlen
  obtain ⟨kind, -, rfl⟩ := Option.map_eq_some_iff.1 ht
  exact Pattern.forall_mem_take_of_le_runLength (Pattern.length?_le_inline rfl (by decide) hlen)

theorem inline_of_pragma? (h : l.step? = some s) {p : Pragma} (hp : s.pragma? = some p) :
    ∀ v ∈ p.value, v.Inline := by
  obtain ⟨n, r, hmatch, rfl⟩ := step?_eq_some_iff.1 h
  obtain ⟨hr, hlen⟩ := Rule.longestMatch_mem hmatch
  have hmeaning : r.meaning = .pragma := by
    by_contra hne
    have hnone : (l.read n r).pragma? = none := if_neg hne
    rw [hnone] at hp
    cases hp
  have hpragma : (l.read n r).pragma? = Pragma.ofLine? (l.rest.take n) := if_pos hmeaning
  rw [Rule.length?, Rule.pattern_of_pragma hr hmeaning] at hlen
  obtain ⟨tail, -, htail, hline⟩ := (Pattern.pragmaLine_of_length? hlen).exists_ofLine?_eq
  rw [hpragma, hline, Pragma.ofBody?] at hp
  have hbody : Text.Inline (tail.dropWhile isBlank) :=
    Text.Inline.subset htail (List.dropWhile_suffix _).subset
  intro v hv
  split at hp
  next name value hsplit =>
    cases hp
    cases hv
    obtain ⟨c, heq, -, -⟩ := Text.splitAtFirst_eq hsplit
    refine hbody.subset fun d hd => ?_
    rw [heq]
    exact List.mem_append_right _ (List.mem_cons_of_mem _ ((List.dropWhile_suffix _).subset hd))
  · split at hp
    · cases hp
    · cases hp
      cases hv

end Lexer

/-- The values of the pragmas end no line. -/
def Pragmas.Inline (ps : Pragmas) : Prop := ∀ p ∈ ps, ∀ v ∈ p.value, v.Inline

theorem Pragmas.Inline.erase {ps : Pragmas} (h : ps.Inline) (name : Text) :
    (Pragmas.erase ps name).Inline :=
  fun p hp => h p (List.mem_filter.1 hp).1

namespace Lexer

variable {l : Lexer} {s : Step}

theorem inline_pragmas_of_step? (hl : l.pragmas.Inline) (h : l.step? = some s) :
    s.next.pragmas.Inline := by
  rw [pragmas_of_step? h]
  cases hp : s.pragma? with
  | none => exact hl
  | some p => exact List.forall_mem_cons.2 ⟨inline_of_pragma? h hp, hl.erase p.name⟩

theorem inline_of_next (hl : l.pragmas.Inline) :
    l.next.2.pragmas.Inline ∧
      ∀ t?, l.next.1 = .ok t? → ∀ t ∈ t?, t.IsWord → t.text.Inline := by
  fun_induction next l with
  | case1 => exact ⟨hl, fun t? h t ht => by cases h; cases ht⟩
  | case2 => exact ⟨hl, fun t? h => by cases h⟩
  | case3 l _ s h t ht =>
    refine ⟨inline_pragmas_of_step? hl h, fun t? ht? u hu hkind => ?_⟩
    cases ht?
    exact inline_of_step? h (ht.trans hu) hkind
  | case4 l _ s h ht ih => exact ih (inline_pragmas_of_step? hl h)

theorem inline_takePragma (hl : l.pragmas.Inline) (name : Text) :
    (l.takePragma name).2.pragmas.Inline ∧ ∀ p ∈ (l.takePragma name).1, ∀ v ∈ p.value,
      v.Inline := by
  unfold takePragma
  split
  next p hp =>
    refine ⟨hl.erase name, fun q hq => ?_⟩
    cases hq
    exact hl p (List.mem_of_find?_eq_some hp)
  · exact ⟨hl, fun p hp => by cases hp⟩

end Lexer

/-- The word ahead and the values of the pragmas end no line. -/
structure TokenStream.Inline (s : TokenStream) : Prop where
  ahead : ∀ t ∈ s.ahead, t.IsWord → t.text.Inline
  pragmas : s.lexer.pragmas.Inline

theorem TokenStream.inline_ofText (dialect : Dialect) (cs : Text) :
    (TokenStream.ofText dialect cs).Inline where
  ahead _ h := by cases h
  pragmas := List.forall_mem_nil _

theorem mem_of_mem_upTo {quote : Char} {cs body : Text}
    (h : pragmaBody?.upTo quote cs = some body) :
    body ⊆ cs := by
  induction cs using pragmaBody?.upTo.induct quote generalizing body with
  | case1 => cases h
  | case2 c cs ih =>
    rw [pragmaBody?.upTo] at h
    obtain ⟨inner, hinner, rfl⟩ := Option.map_eq_some_iff.1 h
    exact List.cons_subset_cons _ (List.cons_subset_cons _ (ih hinner))
  | case3 c cs hescaped hquote =>
    rw [pragmaBody?.upTo.eq_3 _ _ _ hescaped, if_pos hquote] at h
    cases h
    exact List.nil_subset _
  | case4 c cs hescaped hquote ih =>
    rw [pragmaBody?.upTo.eq_3 _ _ _ hescaped, if_neg hquote] at h
    obtain ⟨inner, hinner, rfl⟩ := Option.map_eq_some_iff.1 h
    exact List.cons_subset_cons _ (ih hinner)

theorem inline_pragmaBody? {value body : Text} (hvalue : value.Inline)
    (h : pragmaBody? value = some body) :
    body.Inline := by
  unfold pragmaBody? at h
  split at h
  · cases h
  next quote rest htrim =>
    split at h
    · have hsub : Text.trim isWhiteSpace value ⊆ value := fun c hc =>
        (List.dropWhile_suffix _).subset
          (List.mem_reverse.1 ((List.dropWhile_suffix _).subset (List.mem_reverse.1 hc)))
      rw [htrim] at hsub
      exact hvalue.subset fun c hc => hsub (List.mem_cons_of_mem _ (mem_of_mem_upTo h hc))
    · cases h

namespace Parser

variable {α : Type} {n : α → List Text} {c : α → Bool} {p : Parser α} {s u : TokenStream}

theorem inline_of_peek? {t? : Option Token} (hs : s.Inline) (h : run peek? s = (.ok t?, u)) :
    u.Inline := by
  rw [run_peek?] at h
  cases hahead : s.ahead with
  | some t =>
    rw [hahead] at h
    cases h
    exact hs
  | none =>
    rw [hahead] at h
    obtain ⟨hpragmas, htokens⟩ := Lexer.inline_of_next hs.pragmas
    rcases hnext : s.lexer.next with ⟨e | v?, l⟩
    · rw [hnext] at h
      cases h
    · rw [hnext] at h hpragmas htokens
      cases h
      exact ⟨htokens _ rfl, hpragmas⟩

theorem inline_afterTake (hs : s.Inline) (t : Token) : (afterTake t s).Inline :=
  ⟨fun _ h => (by cases h), hs.pragmas⟩

/-- The names of modules are identifiers behind what pragmas put in front of them. -/
theorem inline_of_moduleHead {name : Text} (hs : s.Inline) (h : run moduleHead s = (.ok name, u)) :
    u.Inline ∧ name.Inline := by
  obtain ⟨k, s₁, t, s₂, before, hk, -, ht, hkind, hbefore, rfl, rfl⟩ := exists_of_run_moduleHead h
  have hinline := inline_of_peek? (inline_afterTake (inline_of_peek? hs hk) k) ht
  obtain ⟨hpragmas, hvalue⟩ := Lexer.inline_takePragma hinline.pragmas "prefix".toList
  have hahead := ahead_of_peek? (s := afterTake k s₁) (t := some t) (by rw [ht])
  rw [ht] at hahead
  refine ⟨⟨fun _ h => (by cases h), hpragmas⟩, Text.Inline.append ?_
    (hinline.ahead t hahead (.inl hkind))⟩
  unfold prefixOf? at hbefore
  split at hbefore
  · cases hbefore
    exact Text.inline_nil
  next value hpragma =>
    obtain ⟨q, hq, hv⟩ := Option.bind_eq_some_iff.1 hpragma
    obtain ⟨body, hbody, rfl⟩ := Option.map_eq_some_iff.1 hbefore
    split
    · exact Text.inline_nil
    · exact (inline_pragmaBody? (hvalue q hq value hv) hbody).append (Text.inline_of_all rfl)

/-- Parsers keep a stream whose words and pragmas are inline. -/
def inlineCourse : Course where
  rel _ _ s t := s.Inline → t.Inline
  refl _ h := h
  trans hst htu h := htu (hst h)
  weaken h := h
  peek hrun h := inline_of_peek? h hrun
  take _ _ h := inline_afterTake h _
  half _ _ h :=
  ⟨fun t ht hword => (by cases ht; rcases hword with h | ⟨k, h⟩ <;> cases h), h.pragmas⟩
  angles _ _ h := ⟨h.ahead, h.pragmas⟩
  properties _ _ h := ⟨fun _ h => (by cases h), h.pragmas⟩
  module hrun h := (inline_of_moduleHead h hrun).1

/-- What every parser does to its stream keeps the stream inline. -/
theorem Leads.maintains (h : Leads inlineCourse c n p) : Maintains TokenStream.Inline p :=
  fun s a u hs hrun => ⟨h s a u hrun hs, trivial⟩

/-! ## Names -/

theorem returns_peek : Returns TokenStream.Inline (fun t => t.IsWord → t.text.Inline) peek := by
  intro s t u hs hrun
  obtain ⟨t?, s₁, hpeek, hrest⟩ := exists_of_run_bind hrun
  have hinline := inline_of_peek? hs hpeek
  have hahead := ahead_of_peek? (s := s) (t := t?) (by rw [hpeek])
  rw [hpeek] at hahead
  cases t? with
  | none => exact absurd hrest (fails_failAtEnd _ _ _)
  | some t =>
    rw [run_pure] at hrest
    cases hrest
    exact ⟨hinline, hinline.ahead t hahead⟩

/-- A token of any kind is taken. -/
theorem maintains_take : Maintains TokenStream.Inline take := by
  intro s t u hs hrun
  rw [run_take] at hrun
  rcases hpeek : run peek? s with ⟨e | t?, s₁⟩
  · rw [hpeek] at hrun
    cases hrun
  · rw [hpeek] at hrun
    cases t? with
    | none => cases hrun
    | some t =>
      cases hrun
      exact ⟨inline_afterTake (inline_of_peek? hs hpeek) t, trivial⟩

theorem returns_expect (kind : TokenKind) (place : String) :
    Returns TokenStream.Inline (fun t => kind = .identifier → t.text.Inline)
      (expect kind place) := by
  intro s t u hs hrun
  obtain ⟨s₁, hpeek, hkind, rfl⟩ := exists_of_run_expect hrun
  have hahead := ahead_of_peek? (s := s) (t := some t) (by rw [hpeek])
  rw [hpeek] at hahead
  have hinline := inline_of_peek? hs hpeek
  exact ⟨inline_afterTake hinline t, fun h => hinline.ahead t hahead (.inl (hkind.trans h))⟩

theorem returns_identifier (place : String) :
    Returns TokenStream.Inline Text.Inline (identifier place) :=
  (returns_expect .identifier place).bind fun _ ht => returns_pure (ht rfl)

/-- A token of a kind is taken if it comes next. -/
theorem returns_isNext_take {kind : TokenKind} {P : α → Prop} {f : Token → Parser α}
    (hf : ∀ t : Token, (kind = .identifier → t.text.Inline) → Returns TokenStream.Inline P (f t))
    (hp : Returns TokenStream.Inline P p) :
    Returns TokenStream.Inline P (do if ← isNext kind then f (← take) else p) := by
  rw [isNext_take_eq]
  intro s a u hs hrun
  obtain ⟨t?, s₁, hpeek, hrest⟩ := exists_of_run_bind hrun
  have hinline := inline_of_peek? hs hpeek
  have hahead := ahead_of_peek? (s := s) (t := t?) (by rw [hpeek])
  rw [hpeek] at hahead
  cases t? with
  | none => exact hp s₁ a u hinline hrest
  | some t =>
    dsimp only at hrest
    split at hrest
    next hkind =>
      exact hf t (fun h => hinline.ahead t hahead (.inl (hkind.trans h))) _ a u
        (inline_afterTake hinline t) hrest
    · exact hp s₁ a u hinline hrest

theorem returns_identifier? :
    Returns TokenStream.Inline (fun name? => ∀ name ∈ name?, name.Inline) identifier? :=
  returns_isNext_take (fun t ht => returns_pure fun name hname => by cases hname; exact ht rfl)
    (returns_pure fun _ h => by cases h)

/-- What a scoped name is made of. -/
theorem inline_text_ofFirst {first : Text} {more : List Text} (hfirst : first.Inline)
    (hmore : ∀ name ∈ more, name.Inline) (absolute : Bool) :
    (ScopedName.ofFirst absolute first more).text.Inline := by
  have hseparator : Scope.separator.Inline := Text.inline_of_all rfl
  rw [ScopedName.text, ScopedName.segments_ofFirst]
  refine Text.Inline.append ?_
    (Text.Inline.join hseparator (List.forall_mem_cons.2 ⟨hfirst, hmore⟩))
  split
  · exact hseparator
  · exact Text.inline_nil

theorem returns_nextSegment :
    Returns TokenStream.Inline (fun name? => ∀ name ∈ name?, name.Inline) nextSegment :=
  (leads_acceptPunct _).maintains.bind fun _ _ => returns_ite
    (fun _ => (returns_identifier _).bind fun _ h => returns_pure
    fun name hname => by cases hname; exact h)
    fun _ => returns_pure fun _ h => by cases h

theorem returns_scopedName : Returns TokenStream.Inline (fun name => name.text.Inline) scopedName :=
  (leads_acceptPunct _).maintains.bind fun absolute _ => (returns_identifier _).bind fun _ hfirst =>
    (returns_many returns_nextSegment).bind fun _ hmore =>
      returns_pure (inline_text_ofFirst hfirst hmore absolute)

theorem returns_scopedNames :
    Returns TokenStream.Inline (fun names => ∀ name ∈ names, name.text.Inline) scopedNames :=
  returns_commaList (leads_acceptPunct _).maintains returns_scopedName

end Parser

end IdlFrontend
