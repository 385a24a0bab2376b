import IdlFrontend.Frontend
import IdlFrontend.Proofs.Reading.Operation

/-!
# Operations of interfaces

An operation is written as the only member of an interface, and the interface as the only
definition of a text.

Results:

* `reads_interfaceMember`: an operation is read as a member.
* `ofText_operation`: the text is accepted, and the operation is read back.
-/

namespace IdlFrontend

/-- The words of an interface with the operation as its only member. -/
def Operation.interfaceWords (o : Operation) (name? : Option Text) (interface : Text) : List Word :=
  .keyword .interface :: .identifier interface :: .punct .openBrace ::
    (o.words name? ++ [.punct .semicolon, .punct .closeBrace, .punct .semicolon])

/-- The interface with the operation as its only member. -/
def Operation.inInterface (o : Operation) (name : Text) : Interface :=
  ⟨name, [], some [], some [.operation o]⟩

variable {d : Dialect} {n : Nat} {w : Word} {ws us : List Word} {l : Lexer} {o : Operation}
  {name? : Option Text}

/-- Behind its lead an operation begins like a type, or with the word for none. -/
theorem Operation.IsLegal.avoids (ho : o.IsLegal d name?) {K : TokenKind → Prop}
    (hK : ∀ kind, K kind → Parser.startsType kind = false ∧ kind ≠ .keyword .void) :
    Place.Avoids K ⟨n, o.typeWords name? ++ us, l⟩ := by
  rw [typeWords, List.append_assoc]
  exact ho.returnType.avoids hK

theorem Lead.avoids_words {m : Lead} {K : TokenKind → Prop}
    (hK : ∀ kind, K kind → kind ∉ [.keyword .oneway, .keyword .readonly, .punct .openBracket])
    (h : Place.Avoids K ⟨n, us, l⟩) : Place.Avoids K ⟨n, m.words ++ us, l⟩ := by
  obtain ⟨ms, ps⟩ := m
  cases ms with
  | cons a ms =>
    exact Place.avoids_word (by rintro ⟨⟩) fun hkind => hK _ hkind (by cases a <;> decide)
  | nil =>
    cases ps with
    | cons p ps => exact Place.avoids_word (by rintro ⟨⟩) fun hkind => hK _ hkind (by decide)
    | nil => exact h

namespace Parser

/-! ## Members -/

theorem reads_bare?_none {m : Lead} {P : Place} (hsemicolon : P.Avoids (· = .punct .semicolon))
    (hfragment : P.Avoids (· = .fragment)) : Reads (bare? m) P none P := by
  unfold bare?
  cases m.isEmpty with
  | false => exact reads_pure none P
  | true =>
    refine Reads.bind (reads_accept_false hsemicolon) ?_
    exact Reads.bind (reads_isNext_false hfragment) (reads_pure none P)

theorem reads_declaration?_none {valueType : Lead → Parser ValueType} {m : Lead} (hw : w ≠ .closing)
    (h : w.kind ∉ [.keyword .typeDef, .keyword .native, .keyword .valueType, .keyword .exception,
      .keyword .const]) :
    Reads (declaration? valueType m) ⟨n, w :: us, l⟩ none ⟨n, w :: us, l⟩ := by
  refine (reads_kind? hw).bind ?_
  split
  next heq => exact absurd (by rw [Option.some.inj heq]; decide) h
  next heq => exact absurd (by rw [Option.some.inj heq]; decide) h
  next heq => exact absurd (by rw [Option.some.inj heq]; decide) h
  next heq => exact absurd (by rw [Option.some.inj heq]; decide) h
  next heq => exact absurd (by rw [Option.some.inj heq]; decide) h
  · exact reads_pure none _

theorem reads_declarationOrType?_none {valueType : Lead → Parser ValueType} {m : Lead}
    (ho : o.IsLegal d name?) :
    Reads (declarationOrType? valueType m) ⟨n, o.typeWords name? ++ us, l⟩ none
      ⟨n, o.typeWords name? ++ us, l⟩ := by
  obtain ⟨w, vs, hwords, hw, hstarts, hkind⟩ := ho.returnType.exists_words
  rw [Operation.typeWords, hwords]
  refine Reads.bind (reads_constructed?_none hw hkind) (reads_declaration?_none hw fun hmem => ?_)
  simp only [List.mem_cons, List.not_mem_nil, or_false] at hmem
  rcases hmem with h | h | h | h | h <;> rw [h] at hstarts <;> exact absurd hstarts (by decide)

theorem modifier?_isSome {kind : TokenKind} (h : (modifier? kind).isSome) :
    startsType kind = false ∧ kind ≠ .keyword .void := by
  unfold modifier? at h
  split at h <;> first | exact ⟨rfl, by rintro ⟨⟩⟩ | cases h

/-- The semicolon behind an operation is part of the member. -/
theorem reads_interfaceMember (ho : o.IsLegal d name?) (hd : l.dialect = d) :
    Reads interfaceMember ⟨0, o.words name? ++ .punct .semicolon :: us, l⟩ (some (.operation o))
      ⟨0, us, l⟩ := by
  have hlead : EndsLead modifier? ⟨0, o.typeWords name? ++ .punct .semicolon :: us, l⟩ := by
    rw [Operation.typeWords, List.append_assoc]
    exact endsLead_of_usable ho.returnType fun _ => modifier?_isSome
  have havoid (kind : TokenKind) (h : startsType kind = false ∧ kind ≠ .keyword .void) :
      Place.Avoids (· = kind) ⟨0, o.typeWords name? ++ .punct .semicolon :: us, l⟩ :=
    ho.avoids fun _ hkind => hkind ▸ h
  obtain ⟨w, vs, hwords⟩ : ∃ w vs, o.typeWords name? ++ .punct .semicolon :: us = w :: vs := by
    obtain ⟨w, vs, hwords, -⟩ := ho.returnType.exists_words
    rw [Operation.typeWords, hwords]
    exact ⟨w, _, rfl⟩
  rw [Operation.words, List.append_assoc]
  refine (reads_lead ho.modifiers ho.properties.distinct hlead).bind ?_
  rw [hwords]
  refine (finds_peek 0 w vs l).bind fun _ _ => ?_
  rw [← hwords]
  refine Reads.bind (reads_bare?_none (havoid (.punct .semicolon) ⟨rfl, by rintro ⟨⟩⟩)
    (havoid .fragment ⟨rfl, by rintro ⟨⟩⟩)) ?_
  refine Reads.bind (reads_declarationOrType?_none ho) ?_
  refine Reads.bind (reads_isNext_false (havoid (.keyword .attribute) ⟨rfl, by rintro ⟨⟩⟩)) ?_
  refine (reads_operation ho hd).bind ?_
  exact (reads_expectPunct _ (by decide)).bind (reads_pure _ _)

/-! ## Interfaces -/

theorem reads_interfaceName {name : Text} (hname : builtinInterface? name = none) :
    Reads interfaceName ⟨n, .identifier name :: us, l⟩ name ⟨n, us, l⟩ := by
  refine (finds_peek n (.identifier name) us l).bind fun t hsees => ?_
  rw [kind_of_sees hsees (by rintro ⟨⟩)]
  refine Finds.bind (finds_take (.identifier name) (by rintro ⟨⟩) (by rintro ⟨⟩)) fun _ _ => ?_
  rw [text_of_word_identifier (word_of_sees hsees (by rintro ⟨⟩) (by rintro ⟨⟩)), hname]
  exact reads_pure name _

theorem reads_interface (ho : o.IsLegal d name?) (hd : l.dialect = d) {name : Text}
    (hname : builtinInterface? name = none) :
    Reads (interface {}) ⟨0, .keyword .interface :: .identifier name :: .punct .openBrace ::
        (o.words name? ++ .punct .semicolon :: .punct .closeBrace :: us), l⟩
      (o.inInterface name) ⟨0, us, l⟩ := by
  have hmember : Reads (do
        if ← acceptPunct .closeBrace then return none else return some (← interfaceMember))
      ⟨0, o.words name? ++ .punct .semicolon :: .punct .closeBrace :: us, l⟩
      (some (some (.operation o))) ⟨0, .punct .closeBrace :: us, l⟩ := by
    refine Reads.bind (reads_accept_false ?_) ((reads_interfaceMember ho hd).bind (reads_pure _ _))
    rw [Operation.words, List.append_assoc]
    refine Lead.avoids_words (fun kind hkind => ?_) (ho.avoids fun kind hkind => ?_)
    · rw [hkind]
      decide
    · rw [hkind]
      exact ⟨rfl, by rintro ⟨⟩⟩
  have hend : Reads (do
        if ← acceptPunct .closeBrace then return none else return some (← interfaceMember))
      ⟨0, .punct .closeBrace :: us, l⟩ none ⟨0, us, l⟩ :=
    (reads_acceptPunct (by decide)).bind (reads_pure _ _)
  have hmembers := Items.cons hmember (Place.size_lt_append_cons _ _ _ l) (.nil _)
  refine (reads_expectKeyword .interface _).bind ?_
  refine Reads.bind (reads_interfaceName hname) ?_
  refine Reads.bind (reads_isNext_false (Place.avoids_word (by rintro ⟨⟩) (by rintro ⟨⟩))) ?_
  refine Reads.bind (reads_isNext_true (.punct .openBrace) (by rintro ⟨⟩)) ?_
  refine Reads.bind (reads_accept_false (Place.avoids_word (by rintro ⟨⟩) (by rintro ⟨⟩))) ?_
  refine Reads.bind (reads_pure _ _) ?_
  refine Reads.bind (reads_expectPunct _ (by decide)) ?_
  exact (hmembers.reads_many hend).bind (reads_pure _ _)

/-! ## Specifications -/

theorem reads_definition (ho : o.IsLegal d name?) (hd : l.dialect = d) {name : Text}
    (hname : builtinInterface? name = none) :
    Reads definition ⟨0, o.interfaceWords name? name ++ us, l⟩
      (some (.interface (o.inInterface name)))
      ⟨0, us, l⟩ := by
  have hlead {vs : List Word} : EndsLead modifier? ⟨0, .keyword .interface :: vs, l⟩ :=
    Place.avoids_word (by rintro ⟨⟩) (by decide)
  rw [Operation.interfaceWords, List.cons_append, List.cons_append, List.cons_append,
    List.append_assoc]
  refine Rounds.reads_recurse (.last fun more => ?_)
  refine Reads.bind (reads_lead (m := {}) List.nodup_nil List.nodup_nil hlead) ?_
  refine (finds_peek 0 (.keyword .interface) _ l).bind fun t hsees => ?_
  refine Reads.bind (reads_bare?_none (Place.avoids_word (by rintro ⟨⟩) (by rintro ⟨⟩))
    (Place.avoids_word (by rintro ⟨⟩) (by rintro ⟨⟩))) ?_
  rw [kind_of_sees hsees (by rintro ⟨⟩)]
  refine Reads.bind (reads_isNext_true (.keyword .interface) (by rintro ⟨⟩)) ?_
  refine Reads.bind (reads_interface ho hd hname) ?_
  exact (reads_expectPunct _ (by decide)).bind (reads_pure _ _)

theorem reads_specification {m' : Lexer} (ho : o.IsLegal d name?) (hd : l.dialect = d) {name : Text}
    (hname : builtinInterface? name = none) (hend : l.next = (.ok none, m')) :
    Reads specification ⟨0, o.interfaceWords name? name, l⟩ ⟨[.interface (o.inInterface name)]⟩
      ⟨0, [], l⟩ := by
  have hsize : Place.size ⟨0, [], l⟩ < Place.size ⟨0, o.interfaceWords name? name ++ [], l⟩ :=
    Place.size_lt (List.cons_ne_nil _ _) [] l
  rw [← List.append_nil (o.interfaceWords name? name)]
  refine Reads.bind (Items.reads_many (.cons (a := some (.interface (o.inInterface name))) ?_ hsize
    (.nil _)) ?_) (reads_pure _ _)
  · refine (finds_peek? (Place.canLook_cons 0 _ _ l)).bind fun t? hsees => ?_
    obtain ⟨t, rfl, -⟩ := hsees
    exact (reads_definition ho hd hname).bind (reads_pure _ _)
  · refine (finds_peek? fun _ => ⟨none, congrArg Prod.fst hend⟩).bind fun t? hsees => ?_
    have hnext : l.next.1 = .ok t? := hsees
    rw [hend] at hnext
    rw [← Except.ok.inj hnext]
    exact reads_pure _ _

end Parser

/-- A legal operation is accepted as a member of an interface, and read back as it was. -/
theorem Specification.ofText_operation {d : Dialect} {o : Operation} {name? : Option Text}
    (ho : o.IsLegal d name?) {name : Text} (hname : IsToken d .ordinary .identifier name)
    (hbuiltin : Parser.builtinInterface? name = none) :
    Specification.ofText d (Word.line (o.interfaceWords name? name)) =
      .ok ⟨[.interface (o.inInterface name)]⟩ := by
  have hwritable : Writable d .ordinary (o.interfaceWords name? name) .ordinary := by
    refine .keyword (by cases d <;> rfl) (by rintro ⟨⟩)
      (.token hname (by simp) (by rintro ⟨⟩) (.punct .openBrace ?_))
    exact ho.writable_words.append
      (.punct .semicolon (.punct .closeBrace (.punct .semicolon (.nil _))))
  obtain ⟨m, m', hat, hend⟩ := hwritable.written.at 0
  obtain ⟨_, s', hrun, rfl, -⟩ :=
    Parser.reads_specification ho hat.dialect_eq.symm hbuiltin hend _ hat
  exact congrArg Prod.fst hrun

/-- In one dialect a parameter has a default and is followed by untyped arguments. In the other one
    the only arguments are typed. -/
theorem Specification.ofText_operation_varargs :
    let x : Parameter := ⟨['x'], .basic .long, true, [.inward, .outward, .optional],
      some (.literal (.integer ['1'])), [⟨['k'], some (.args ['v'])⟩]⟩
    let f : Operation := ⟨['f'], .basic .void, [x], some (.variable (.basic .any) false []),
      some [⟨⟨true, []⟩, ['E']⟩], [.oneway], some [['c']], [⟨['a'], none⟩]⟩
    let g : Operation := ⟨['g'], .string false (some (.literal (.integer ['8']))), [],
      some (.variable (.basic .long) false []), none, [], none, []⟩
    Specification.ofText .web
      ("interface I \x7b oneway [ a ] void f ( in out optional [ k (v) ] " ++
        "long ? x = 1 , ... ) raises ( :: E ) context ( \"c\" ) ; \x7d ; ").toList =
      .ok ⟨[.interface (f.inInterface ['I'])]⟩ ∧
    Specification.ofText .omg "interface J \x7b string < 8 > g ( in long ... r ) ; \x7d ; ".toList =
      .ok ⟨[.interface (g.inInterface ['J'])]⟩ := by
  intro x f g
  have hx : x.IsLegal .web := {
    type := .inr ⟨⟨rfl, by decide⟩, by rintro _ _ ⟨⟩⟩
    nullable := by rintro ⟨⟩
    properties := ⟨by decide, by decide⟩
    name := by decide
    distinct := by decide
    directed := by rintro ⟨⟩
    value := fun e he => by
      cases he
      exact ⟨by decide, (by decide : Literal.IsWritable .web (.integer ['1']))⟩ }
  have hf : f.IsLegal .web none := {
    name := by decide
    returnType := .inl rfl
    modifiers := by decide
    properties := ⟨by decide, by decide⟩
    parameters := fun p hp => by rwa [List.mem_singleton.1 hp]
    varargs := fun v hv => by cases hv; rfl
    raises := fun xs hxs => by cases hxs; exact ⟨by rintro ⟨⟩, by decide⟩
    context := fun ts hts => by cases hts; exact ⟨by rintro ⟨⟩, by decide⟩ }
  have hlong : TypeSpec.IsUsable .omg (.basic .long) := .inr ⟨⟨rfl, by decide⟩, by rintro _ _ ⟨⟩⟩
  have height : Literal.IsWritable .omg (.integer ['8']) := by decide
  have hg : g.IsLegal .omg (some ['r']) := {
    name := by decide
    returnType := .inr ⟨fun e he => by cases he; exact height, by rintro _ _ ⟨⟩⟩
    modifiers := List.nodup_nil
    properties := ⟨by rintro _ ⟨⟩, List.nodup_nil⟩
    parameters := by rintro _ ⟨⟩
    varargs := fun v hv => by
      cases hv
      exact ⟨rfl, by decide, ⟨hlong, by rintro ⟨⟩, ⟨by rintro _ ⟨⟩, List.nodup_nil⟩⟩, rfl⟩
    raises := by rintro _ ⟨⟩
    context := by rintro _ ⟨⟩ }
  have hI : IsToken .web .ordinary .identifier ['I'] := by decide
  have hJ : IsToken .omg .ordinary .identifier ['J'] := by decide
  have hf_text : Word.line (f.interfaceWords none ['I']) =
      ("interface I \x7b oneway [ a ] void f ( in out optional [ k (v) ] " ++
        "long ? x = 1 , ... ) raises ( :: E ) context ( \"c\" ) ; \x7d ; ").toList := by
    decide +kernel
  have hg_text : Word.line (g.interfaceWords (some ['r']) ['J']) =
      "interface J \x7b string < 8 > g ( in long ... r ) ; \x7d ; ".toList := by decide +kernel
  rw [← hf_text, ← hg_text]
  exact ⟨Specification.ofText_operation hf hI rfl, Specification.ofText_operation hg hJ rfl⟩

end IdlFrontend
