import IdlFrontend.Proofs.Parser.Inline
import IdlFrontend.Proofs.Syntax.Outline

/-!
# The lines of the outline of a text

What an outline shows of a declaration is names, types and words of its own, and none of them ends
a line. The only exception is the raw text of a native type, which is shown as it was written. So
the outline of a text has a line for every visit, and one more for every line feed in raw text.

Results:

* `shows_typeSpec`, `shows_operation`, `shows_definition`: what productions show.
* `Specification.outline_of_ofText`: the lines of the outline of a text.
-/

namespace IdlFrontend

open Text (inline_of_all)

/-! ## What is shown -/

/-- The raw text that an outline shows for an event, trimmed. -/
def Event.raw : Event → Text
  | .leaf (.native n) => (n.raw.map (Text.trim isWhiteSpace)).getD []
  | _ => []

/-- The ends of lines in what is shown are those of raw text. -/
def Event.Shown (e : Event) : Prop := e.outline.filter isLineEnd = e.raw.filter isLineEnd

/-- The same for all events of a definition. -/
def Definition.Shown (d : Definition) : Prop := ∀ e ∈ d.events, e.Shown

structure Field.Inline (f : Field) : Prop where
  type : f.type.text.Inline
  declarators : ∀ d ∈ f.declarators, d.name.Inline

structure StructType.Inline (s : StructType) : Prop where
  name : ∀ name ∈ s.name, name.Inline
  fields : ∀ f ∈ s.fields, f.Inline

structure UnionType.Inline (u : UnionType) : Prop where
  name : ∀ name ∈ u.name, name.Inline
  selector : u.selector.text.Inline
  cases : ∀ c ∈ u.cases, c.element.Inline

structure EnumType.Inline (e : EnumType) : Prop where
  name : ∀ name ∈ e.name, name.Inline
  enumerators : ∀ name ∈ e.enumerators, name.Inline

structure Parameter.Inline (p : Parameter) : Prop where
  name : p.name.Inline
  type : p.type.text.Inline

theorem filter_isLineEnd_of_inline {cs : Text} (h : cs.Inline) : cs.filter isLineEnd = [] := by
  refine List.filter_eq_nil_iff.2 fun c hc => ?_
  simpa [Pattern.isInline] using h c hc

theorem Event.shown_of_inline {e : Event} (h : e.outline.Inline) (hraw : e.raw = []) : e.Shown := by
  rw [Event.Shown, filter_isLineEnd_of_inline h, hraw]
  rfl

theorem inline_nameOrAnonymous {name : Option Text} (h : ∀ n ∈ name, n.Inline) :
    (nameOrAnonymous name).Inline := by
  cases name with
  | none => exact inline_of_all rfl
  | some n => exact h n rfl

theorem inline_commaSeparated {parts : List Text} (h : ∀ cs ∈ parts, cs.Inline) :
    (commaSeparated parts).Inline :=
  Text.Inline.join (inline_of_all rfl) h

theorem inline_declaratorNames {ds : List Declarator} (h : ∀ d ∈ ds, d.name.Inline) :
    (declaratorNames ds).Inline := by
  refine inline_commaSeparated fun name hname => ?_
  obtain ⟨d, hd, rfl⟩ := List.mem_map.1 hname
  exact h d hd

theorem shown_around {c : Container} {inner : List Event} (hc : c.outline.Inline)
    (hinner : ∀ e ∈ inner, e.Shown) : ∀ e ∈ c.around inner, e.Shown := by
  refine List.forall_mem_append.2 ⟨List.forall_mem_cons.2 ⟨Event.shown_of_inline hc rfl,
    hinner⟩, ?_⟩
  exact List.forall_mem_singleton.2 rfl

theorem shown_leaf {l : Leaf} (hl : l.outline.Inline) (hraw : (Event.leaf l).raw = []) :
    ∀ e ∈ [Event.leaf l], e.Shown := List.forall_mem_singleton.2 (Event.shown_of_inline hl hraw)

theorem Field.Inline.outline {f : Field} (h : f.Inline) : (Leaf.field f).outline.Inline :=
  ((inline_of_all rfl).append h.type).append
    (Text.inline_cons.2 ⟨rfl, inline_declaratorNames h.declarators⟩)

theorem shown_fieldEvents {fs : List Field} (h : ∀ f ∈ fs, f.Inline) :
    ∀ e ∈ fieldEvents fs, e.Shown := by
  intro e he
  obtain ⟨f, hf, rfl⟩ := List.mem_map.1 he
  exact Event.shown_of_inline (h f hf).outline rfl

theorem StructType.Inline.shown {s : StructType} (h : s.Inline) :
    (TypeSpec.struct s).text.Inline ∧ (Definition.struct s).Shown := by
  have htext : (TypeSpec.struct s).text.Inline :=
    (inline_of_all rfl).append (inline_nameOrAnonymous h.name)
  refine ⟨htext, ?_⟩
  rw [Definition.Shown, Definition.events]
  exact shown_around htext (shown_fieldEvents h.fields)

theorem UnionType.Inline.shown {u : UnionType} (h : u.Inline) :
    (TypeSpec.union u).text.Inline ∧ (Definition.union u).Shown := by
  have htext : (TypeSpec.union u).text.Inline :=
    (inline_of_all rfl).append (inline_nameOrAnonymous h.name)
  refine ⟨htext, ?_⟩
  rw [Definition.Shown, Definition.events]
  refine shown_around (((htext.append (inline_of_all rfl)).append h.selector).append
    (inline_of_all rfl)) ?_
  refine shown_fieldEvents fun f hf => ?_
  obtain ⟨c, hc, rfl⟩ := List.mem_map.1 hf
  exact h.cases c hc

theorem EnumType.Inline.shown {e : EnumType} (h : e.Inline) :
    (TypeSpec.enum e).text.Inline ∧ (Definition.enum e).Shown := by
  have htext : (TypeSpec.enum e).text.Inline :=
    (inline_of_all rfl).append (inline_nameOrAnonymous h.name)
  refine ⟨htext, ?_⟩
  rw [Definition.Shown, Definition.events]
  refine shown_around ?_ (List.forall_mem_nil _)
  exact ((htext.append (inline_of_all rfl)).append (inline_commaSeparated h.enumerators)).append
    (inline_of_all rfl)

theorem inline_spelling (type : BasicType) : Text.Inline type.spelling.toList := by
  cases type <;> exact inline_of_all rfl

/-- What an outline shows of a parameter is what is read of it, but for blanks in front. -/
theorem Parameter.Inline.outline {p : Parameter} (h : p.Inline) : p.outline.Inline := by
  have hdirections :
      Text.Inline (Text.join [' '] (p.directions.map fun d => d.spelling.toList)) := by
    refine Text.Inline.join (inline_of_all rfl) fun cs hcs => ?_
    obtain ⟨d, -, rfl⟩ := List.mem_map.1 hcs
    cases d <;> exact inline_of_all rfl
  have htype : Text.Inline (' ' :: p.type.text) := Text.inline_cons.2 ⟨rfl, h.type⟩
  have hname : Text.Inline (' ' :: p.name) := Text.inline_cons.2 ⟨rfl, h.name⟩
  exact ((hdirections.append htype).append hname).subset (List.dropWhile_suffix _).subset

theorem shown_operation {o : Operation} (hname : o.name.Inline) (htype : o.returnType.text.Inline)
    (hparameters : ∀ p ∈ o.parameters, p.Inline) : (Definition.operation o).Shown := by
  have hmodifiers : Text.Inline (o.modifiers.map fun d => d.spelling.toList ++ [' ']).flatten := by
    intro c hc
    obtain ⟨cs, hcs, hmem⟩ := List.mem_flatten.1 hc
    obtain ⟨m, -, rfl⟩ := List.mem_map.1 hcs
    have hword : Text.Inline (m.spelling.toList ++ [' ']) := by cases m <;> exact inline_of_all rfl
    exact hword c hmem
  have hdots : ∀ cs ∈ (if o.varargs.isSome then ["...".toList] else []), Text.Inline cs := by
    split
    · exact List.forall_mem_singleton.2 (inline_of_all rfl)
    · exact List.forall_mem_nil _
  have hshown : ∀ cs ∈ o.parameters.map Parameter.outline, Text.Inline cs := by
    intro cs hcs
    obtain ⟨p, hp, rfl⟩ := List.mem_map.1 hcs
    exact (hparameters p hp).outline
  have hlist := inline_commaSeparated (List.forall_mem_append.2 ⟨hshown, hdots⟩)
  refine shown_leaf (Text.Inline.append (Text.Inline.append (Text.Inline.append ?_ ?_) ?_)
    (inline_of_all rfl)) rfl
  · exact (hmodifiers.append (inline_of_all rfl)).append htype
  · exact Text.inline_cons.2 ⟨rfl, hname⟩
  · exact Text.inline_cons.2 ⟨rfl, hlist⟩

namespace Parser

variable {α : Type} {P : α → Prop} {n : α → List Text} {c : α → Bool} {p : Parser α}

/-- Every result of the parser from an inline stream has the property. -/
abbrev Shows (P : α → Prop) (p : Parser α) : Prop := Returns TokenStream.Inline P p

theorem shows_manyUntil {item : Parser α} (h : Shows P item) (close : Punct) :
    Shows (fun as => ∀ a ∈ as, P a) (manyUntil close item) :=
  returns_manyUntil (leads_acceptPunct close).maintains h

theorem shows_commaList {item : Parser α} (h : Shows P item) :
    Shows (fun as => ∀ a ∈ as, P a) (commaList item) :=
  returns_commaList (leads_acceptPunct .comma).maintains h

theorem shows_commaMore {item : Parser α} (h : Shows P item) :
    Shows (fun as => ∀ a ∈ as, P a) (commaMore item) :=
  returns_many ((leads_acceptPunct _).maintains.bind fun _ _ => returns_ite
    (fun _ => h.bind fun _ ha => returns_pure fun b hb => by cases hb; exact ha)
    fun _ => returns_pure fun _ h => by cases h)

/-! ## Types -/

theorem shows_declarator : Shows (fun d => d.name.Inline) declarator :=
  (returns_identifier _).bind fun _ h => goes_dimensions.maintains.bind fun _ _ =>
    returns_pure (by rwa [Declarator.name_ofDimensions])

theorem shows_sequenceType {simple : Parser TypeSpec} (h : Shows (fun t => t.text.Inline) simple) :
    Shows (fun t => t.text.Inline) (sequenceType simple) := by
  refine (advances_expectPunct _ _).maintains.bind fun _ _ =>
    goes_enterAngle.maintains.bind fun _ _ => ?_
  refine h.bind fun element helement => (leads_acceptPunct _).maintains.bind fun _ _ => ?_
  refine returns_ite_bind (fun _ => advances_constExpr.goes.map.maintains)
    (fun _ => returns_pure trivial) fun _ _ => ?_
  refine (advances_closeAngle _).maintains.bind fun _ _ => returns_pure ?_
  exact ((inline_of_all rfl).append helement).append (inline_of_all rfl)

theorem shows_stringType (wide : Bool) : Shows (fun t => t.text.Inline) (stringType wide) := by
  have htext (bound : Option ConstExpr) : (TypeSpec.string wide bound).text.Inline := by
    cases wide <;> exact inline_of_all rfl
  refine (leads_acceptPunct _).maintains.bind fun _ _ => returns_ite (fun _ => ?_) fun _ =>
    returns_pure (htext none)
  refine goes_enterAngle.maintains.bind fun _ _ =>
    advances_constExpr.maintains.bind fun bound _ => ?_
  exact (advances_closeAngle _).maintains.bind fun _ _ => returns_pure (htext _)

theorem shows_fixedType : Shows (fun t => t.text.Inline) fixedType := by
  refine (advances_expectPunct _ _).maintains.bind fun _ _ =>
    goes_enterAngle.maintains.bind fun _ _ => ?_
  refine advances_constExpr.maintains.bind fun _ _ =>
    (advances_expectPunct _ _).maintains.bind fun _ _ => ?_
  refine (returns_expect _ _).bind fun _ _ => (advances_closeAngle _).maintains.bind fun _ _ => ?_
  exact returns_pure (inline_of_all rfl)

theorem shows_simpleType : Shows (fun t => t.text.Inline) simpleType := by
  refine returns_recurse (J := fun _ => True) (fun simple hsimple _ _ => ?_) trivial
  refine goes_peek.maintains.bind fun t _ => ?_
  split
  · exact returns_scopedName.bind fun _ h => returns_pure h
  · exact returns_scopedName.bind fun _ h => returns_pure h
  · exact maintains_take.bind fun _ _ => goes_longType.maintains.bind fun _ _ =>
      returns_pure (inline_spelling _)
  · exact maintains_take.bind fun _ _ => goes_unsignedType.maintains.bind fun _ _ =>
      returns_pure (inline_spelling _)
  · exact maintains_take.bind fun _ _ => shows_sequenceType (hsimple () trivial)
  · exact maintains_take.bind fun _ _ => shows_stringType false
  · exact maintains_take.bind fun _ _ => shows_stringType true
  · exact maintains_take.bind fun _ _ => shows_fixedType
  · split
    · exact returns_of_fails (fails_unexpected _)
    · exact maintains_take.bind fun _ _ => returns_pure (inline_spelling _)

theorem shows_enumType (properties : List Property) :
    Shows EnumType.Inline (enumType properties) := by
  refine (advances_expectKeyword (by decide) _).maintains.bind fun _ _ =>
    returns_identifier?.bind fun _ hname => ?_
  refine (advances_expectPunct _ _).maintains.bind fun _ _ =>
    (returns_identifier _).bind fun _ hfirst => ?_
  refine (shows_commaMore (returns_identifier _)).bind fun _ hmore => ?_
  exact (advances_expectPunct _ _).maintains.bind fun _ _ =>
    returns_pure ⟨hname, List.forall_mem_cons.2 ⟨hfirst, hmore⟩⟩

theorem shows_fieldOf {type : TypeSpec} (htype : type.text.Inline) (properties : List Property) :
    Shows Field.Inline (fieldOf type properties) :=
  (shows_commaList shows_declarator).bind fun _ hnames =>
    (advances_expectPunct _ _).maintains.bind fun _ _ => returns_pure ⟨htype, hnames⟩

section Types

variable {type : Parser TypeSpec} (htype : Shows (fun t => t.text.Inline) type)

include htype

theorem shows_fields : Shows (fun fs => ∀ f ∈ fs, f.Inline) (fields type) := by
  refine shows_manyUntil ?_ .closeBrace
  exact goes_lead.maintains.bind fun l _ => htype.bind fun _ h => shows_fieldOf h l.properties

theorem shows_structType (properties : List Property) :
    Shows StructType.Inline (structType type properties) := by
  refine (advances_expectKeyword (by decide) _).maintains.bind fun _ _ =>
    returns_identifier?.bind fun _ hname => ?_
  refine (advances_expectPunct _ _).maintains.bind fun _ _ =>
    (shows_fields htype).bind fun _ hfields => ?_
  exact returns_pure ⟨hname, hfields⟩

omit htype in
theorem shows_selector : Shows (fun t => t.text.Inline) selector := by
  refine (goes_isNext _).maintains.bind fun _ _ => returns_ite (fun _ => ?_) fun _ => ?_
  · exact (shows_enumType []).bind fun _ he => returns_pure he.shown.1
  · exact shows_simpleType.bind fun _ h => returns_ite (fun _ => returns_pure h) fun _ =>
      returns_of_fails (fails_fail _)

theorem shows_unionCase : Shows (fun c => c.element.Inline) (unionCase type) := by
  refine goes_caseLabels.maintains.bind fun _ _ => htype.bind fun _ ht =>
    shows_declarator.bind fun _ hname => ?_
  exact (advances_expectPunct _ _).maintains.bind fun _ _ =>
    returns_pure ⟨ht, List.forall_mem_singleton.2 hname⟩

theorem shows_unionType (properties : List Property) :
    Shows UnionType.Inline (unionType type properties) := by
  refine (advances_expectKeyword (by decide) _).maintains.bind fun _ _ =>
    returns_identifier?.bind fun _ hname => ?_
  refine (advances_expectKeyword (by decide) _).maintains.bind fun _ _ => ?_
  refine (advances_expectPunct _ _).maintains.bind fun _ _ =>
    shows_selector.bind fun _ hselector => ?_
  refine (advances_expectPunct _ _).maintains.bind fun _ _ =>
    (advances_expectPunct _ _).maintains.bind fun _ _ => ?_
  refine (shows_unionCase htype).bind fun _ hfirst => ?_
  refine (shows_manyUntil (shows_unionCase htype) _).bind fun _ hmore => returns_pure ?_
  exact ⟨hname, hselector, List.forall_mem_cons.2 ⟨hfirst, hmore⟩⟩

theorem shows_constructed? (properties : List Property) :
    Shows (fun r? => ∀ r ∈ r?, r.1.text.Inline ∧ r.2.Shown) (constructed? type properties) := by
  refine goes_kind?.maintains.bind fun kind? _ => ?_
  split
  · exact (shows_structType htype properties).bind fun _ h =>
      returns_pure fun _ hr => by cases hr; exact h.shown
  · exact (shows_unionType htype properties).bind fun _ h =>
      returns_pure fun _ hr => by cases hr; exact h.shown
  · exact (shows_enumType properties).bind fun _ h =>
      returns_pure fun _ hr => by cases hr; exact h.shown
  · exact returns_pure fun _ hr => by cases hr

end Types

theorem shows_typeSpec : Shows (fun t => t.text.Inline) typeSpec := by
  refine returns_recurse (J := fun _ => True) (fun type htype _ _ => ?_) trivial
  refine (shows_constructed? (htype () trivial) []).bind fun r? hr => ?_
  cases r? with
  | some r => exact returns_pure (hr r rfl).1
  | none => exact shows_simpleType

/-! ## Attributes and operations -/

theorem shows_usableType : Shows (fun t => t.text.Inline) usableType := by
  refine goes_kind?.maintains.bind fun kind? _ => ?_
  split
  · exact returns_of_fails (fails_unexpected _)
  · exact returns_of_fails (fails_unexpected _)
  · exact returns_of_fails (fails_unexpected _)
  · exact shows_simpleType.bind fun type h => (goes_checkUsable type).maintains.bind fun _ _ =>
      returns_pure h

/-- The clauses behind the name of an attribute leave the name as it is. -/
theorem shows_attributeName : Shows (fun a => a.name.Inline) attributeName := by
  refine (returns_identifier _).bind fun name hname => ?_
  have hclauses (depth : Nat) (a : AttributeName) (s u : TokenStream) (b : AttributeName)
      (h : run (unfold clauseRound depth a) s = (.ok b, u)) : b.name = a.name := by
    induction depth generalizing a s with
    | zero => exact absurd h (fails_failAtEnd _ _ _)
    | succ depth ih =>
      obtain ⟨getter, s₁, -, h⟩ := exists_of_run_bind h
      obtain ⟨setter, s₂, -, h⟩ := exists_of_run_bind h
      split at h
      · obtain ⟨_, s₃, -, h⟩ := exists_of_run_bind h
        obtain ⟨_, s₄, -, h⟩ := exists_of_run_bind h
        obtain ⟨names, s₅, -, h⟩ := exists_of_run_bind h
        split at h
        · exact (ih _ _ h).trans rfl
        · exact (ih _ _ h).trans rfl
      · rw [run_pure] at h
        cases h
        rfl
  intro s a u hs hrun
  refine ⟨leads_recurse (C := inlineCourse) (fun _ => goes_clauseRound) ⟨name, [], []⟩ s a u
    hrun hs, ?_⟩
  show a.name.Inline
  rwa [hclauses _ _ _ _ _ hrun]

theorem shows_attributes (l : Lead) :
    Shows (fun a => (Definition.attribute a).Shown) (attributes l) := by
  refine (advances_expectKeyword (by decide) _).maintains.bind fun _ _ =>
    (goes_isNext _).maintains.bind fun _ _ => ?_
  refine returns_ite_bind (fun _ => (advances_propertyList _).maintains)
    (fun _ => returns_pure trivial) fun _ _ => ?_
  refine shows_usableType.bind fun type htype =>
    (leads_acceptPunct _).maintains.bind fun nullable _ => ?_
  refine (shows_commaList shows_attributeName).bind fun names hnames => returns_pure ?_
  have hlist : (commaSeparated (names.map AttributeName.name)).Inline := by
    refine inline_commaSeparated fun name hname => ?_
    obtain ⟨a, ha, rfl⟩ := List.mem_map.1 hname
    exact hnames a ha
  have hreadonly :
      Text.Inline (if l.modifiers.contains .readonly then "readonly ".toList else []) := by
    split
    · exact inline_of_all rfl
    · exact Text.inline_nil
  have hnullable : Text.Inline (if nullable then ['?'] else []) := by
    cases nullable <;> exact inline_of_all rfl
  exact shown_leaf ((((hreadonly.append (inline_of_all rfl)).append htype).append hnullable).append
    (Text.inline_cons.2 ⟨rfl, hlist⟩)) rfl

theorem shows_parameterType : Shows (fun r => r.1.text.Inline) parameterType := by
  refine (leads_acceptKeyword (by decide)).maintains.bind fun _ _ =>
    returns_ite (fun _ => ?_) fun _ => ?_
  · exact returns_pure (inline_spelling .void)
  · exact shows_usableType.bind fun _ h => (leads_acceptPunct _).maintains.bind fun _ _ =>
      returns_pure h

theorem shows_namedParameter (l : ParameterLead) {type : TypeSpec} (htype : type.text.Inline)
    (nullable : Bool) :
    Shows Parameter.Inline (namedParameter l type nullable) := by
  refine (returns_identifier _).bind fun name hname =>
    (leads_acceptPunct _).maintains.bind fun _ _ => ?_
  refine returns_ite_bind (fun _ => advances_constExpr.goes.map.maintains)
    (fun _ => returns_pure trivial) fun _ _ => ?_
  have hget : Maintains TokenStream.Inline get := fun s t u hs hrun => by
    cases hrun
    exact ⟨hs, trivial⟩
  exact hget.bind fun _ _ => returns_unless (returns_unless (returns_pure ⟨hname, htype⟩))

theorem shows_parametersAfter : Shows (fun r => ∀ p ∈ r.1, p.Inline) (parametersAfter []) := by
  refine returns_recurse (J := fun before => ∀ p ∈ before, p.Inline)
    (fun more hmore before hbefore => ?_) (List.forall_mem_nil Parameter.Inline)
  refine leads_acceptVarargs.maintains.bind fun _ _ => returns_ite (fun _ => ?_) fun _ => ?_
  · exact (advances_expectPunct _ _).maintains.bind fun _ _ => returns_pure hbefore
  refine goes_parameterLead.maintains.bind fun l _ => shows_parameterType.bind fun r hr => ?_
  refine (leads_acceptPunct _).maintains.bind fun _ _ => returns_ite (fun _ => ?_) fun _ => ?_
  · refine (advances_typedVarargs l r.1 r.2).maintains.bind fun _ _ => returns_unless ?_
    exact (advances_expectPunct _ _).maintains.bind fun _ _ => returns_pure hbefore
  · refine (shows_namedParameter l hr r.2).bind fun q hq => ?_
    have hall : ∀ p ∈ before ++ [q], p.Inline :=
      List.forall_mem_append.2 ⟨hbefore, List.forall_mem_singleton.2 hq⟩
    refine (leads_acceptPunct _).maintains.bind fun _ _ =>
      returns_ite (fun _ => hmore _ hall) fun _ => ?_
    exact (advances_expectPunct _ _).maintains.bind fun _ _ => returns_pure hall

theorem shows_parameters : Shows (fun r => ∀ p ∈ r.1, p.Inline) parameters :=
  (advances_expectPunct _ _).maintains.bind fun _ _ =>
    (leads_acceptPunct _).maintains.bind fun _ _ =>
    returns_ite (fun _ => returns_pure (List.forall_mem_nil _)) fun _ => shows_parametersAfter

theorem shows_operationOf (l : Lead) {type : TypeSpec} (htype : type.text.Inline) {name : Text}
    (hname : name.Inline) :
    Shows (fun o => (Definition.operation o).Shown) (operationOf l type name) := by
  refine shows_parameters.bind fun r hr =>
    (leads_acceptKeyword (by decide)).maintains.bind fun _ _ => ?_
  refine returns_ite_bind (fun _ => advances_raisesList.goes.map.maintains)
    (fun _ => returns_pure trivial) fun _ _ => ?_
  refine (leads_acceptKeyword (by decide)).maintains.bind fun _ _ => ?_
  exact returns_ite_bind (fun _ => advances_contextList.goes.map.maintains)
    (fun _ => returns_pure trivial) fun _ _ => returns_pure (shown_operation hname htype hr)

theorem shows_operation (l : Lead) :
    Shows (fun o => (Definition.operation o).Shown) (operation l) := by
  refine (leads_acceptKeyword (by decide)).maintains.bind fun _ _ => ?_
  refine returns_ite_bind (P := fun t => t.text.Inline)
    (fun _ => returns_pure (inline_spelling .void)) (fun _ => shows_usableType)
    fun type htype => ?_
  exact (returns_identifier _).bind fun name hname => shows_operationOf l htype hname

/-! ## Declarations -/

theorem shows_typeDef (l : Lead) : Shows (fun t => (Definition.typeDef t).Shown) (typeDef l) := by
  refine (advances_expectKeyword (by decide) _).maintains.bind fun _ _ =>
    shows_typeSpec.bind fun _ htype => ?_
  refine (shows_commaList shows_declarator).bind fun _ hnames => returns_pure (shown_leaf ?_ rfl)
  exact ((inline_of_all rfl).append htype).append (Text.inline_cons.2 ⟨rfl,
    inline_declaratorNames hnames⟩)

/-- The raw text is all that may end lines. -/
theorem shows_native (l : Lead) : Shows (fun n => (Definition.native n).Shown) (native l) := by
  have hname {name : Text} (h : name.Inline) : ("native ".toList ++ name).filter isLineEnd = [] :=
    filter_isLineEnd_of_inline ((inline_of_all rfl).append h)
  refine (advances_expectKeyword (by decide) _).maintains.bind fun _ _ => ?_
  refine (returns_identifier _).bind fun name h =>
    (leads_acceptPunct _).maintains.bind fun _ _ => ?_
  refine returns_ite (fun _ => ?_) fun _ => returns_pure (List.forall_mem_singleton.2 ?_)
  · refine (returns_expect _ _).bind fun raw _ =>
      (advances_expectPunct _ _).maintains.bind fun _ _ => ?_
    refine returns_pure (List.forall_mem_singleton.2 ?_)
    show ("native ".toList ++ name ++ (" (".toList ++ Text.trim isWhiteSpace raw.text ++
      [')'])).filter isLineEnd = (Text.trim isWhiteSpace raw.text).filter isLineEnd
    rw [List.filter_append, hname h, List.filter_append, List.filter_append]
    exact List.append_nil _
  · show ("native ".toList ++ name ++ []).filter isLineEnd = [].filter isLineEnd
    rw [List.append_nil, hname h]
    rfl

theorem shows_constantType : Shows (fun t => t.text.Inline) constantType := by
  refine (leads_acceptKeyword (by decide)).maintains.bind fun _ _ =>
    returns_ite (fun _ => ?_) fun _ => ?_
  · exact (goes_isNext _).maintains.bind fun _ _ =>
      returns_unless (returns_pure (inline_spelling .fixed))
  · exact shows_simpleType.bind fun _ h => returns_ite (fun _ => returns_pure h) fun _ =>
      returns_of_fails (fails_fail _)

theorem shows_constant (l : Lead) :
    Shows (fun c => (Definition.constant c).Shown) (constant l) := by
  refine (advances_expectKeyword (by decide) _).maintains.bind fun _ _ =>
    shows_constantType.bind fun _ htype => ?_
  refine (returns_identifier _).bind fun _ hname =>
    (advances_expectPunct _ _).maintains.bind fun _ _ => ?_
  refine advances_constExpr.maintains.bind fun _ _ => returns_pure (shown_leaf ?_ rfl)
  exact ((inline_of_all rfl).append htype).append (Text.inline_cons.2 ⟨rfl, hname⟩)

/-! ## Definitions -/

theorem shown_listEvents {ds : List (Option Definition)} (h : ∀ d? ∈ ds, ∀ d ∈ d?, d.Shown) :
    ∀ e ∈ Definition.listEvents (ds.filterMap id), e.Shown := by
  induction ds with
  | nil => exact List.forall_mem_nil _
  | cons d? ds ih =>
    obtain ⟨hd, hds⟩ := List.forall_mem_cons.1 h
    cases d? with
    | none => exact ih hds
    | some d =>
      show ∀ e ∈ Definition.listEvents (d :: ds.filterMap id), e.Shown
      rw [Definition.listEvents]
      exact List.forall_mem_append.2 ⟨hd d rfl, ih hds⟩

theorem shows_ended {d : Definition} (h : d.Shown) :
    Shows (fun d? => ∀ d ∈ d?, d.Shown) (ended d) :=
  (advances_expectPunct _ _).maintains.bind fun _ _ => returns_pure fun _ hd => by cases hd; exact h

theorem shows_valueTypeOf {member : Parser (Option Definition)}
    (h : Shows (fun d? => ∀ d ∈ d?, d.Shown) member) (l : Lead) :
    Shows (fun v => (Definition.valueType v).Shown) (valueTypeOf member l) := by
  have hsome : Shows (fun t? => ∀ t ∈ t?, t.text.Inline) (some <$> typeSpec) :=
    shows_typeSpec.map fun _ ht _ h => by cases h; exact ht
  have hline {name : Option Text} {base : Option TypeSpec} (hname : ∀ n ∈ name, n.Inline)
      (hbase : ∀ t ∈ base, t.text.Inline) (ds : Option (List Definition)) :
      (Container.valueType ⟨name, l.properties, base, ds⟩).outline.Inline := by
    refine ((inline_of_all rfl).append (inline_nameOrAnonymous hname)).append ?_
    cases base with
    | none => exact Text.inline_nil
    | some t => exact (inline_of_all rfl).append (hbase t rfl)
  have hrest {name : Option Text} (hname : ∀ n ∈ name, n.Inline) (base : Option TypeSpec)
      (hbase : ∀ t ∈ base, t.text.Inline) : Shows (fun v => (Definition.valueType v).Shown) (do
        if ← acceptPunct .openBrace then
          let members ← manyUntil .closeBrace member
          return ⟨name, l.properties, base, some (members.filterMap id)⟩
        else return ⟨name, l.properties, base, none⟩) := by
    refine (leads_acceptPunct _).maintains.bind fun _ _ => returns_ite (fun _ => ?_) fun _ => ?_
    · refine (shows_manyUntil h _).bind fun members hmembers => returns_pure ?_
      rw [Definition.Shown, Definition.events]
      exact shown_around (hline hname hbase _) (shown_listEvents hmembers)
    · refine returns_pure ?_
      rw [Definition.Shown, Definition.events]
      exact shown_around (hline hname hbase _) (List.forall_mem_nil _)
  refine (advances_expectKeyword (by decide) _).maintains.bind fun _ _ =>
    returns_identifier?.bind fun name hname => ?_
  refine (leads_acceptPunct _).maintains.bind fun _ _ => goes_kind?.maintains.bind fun _ _ => ?_
  refine returns_ite (fun _ => hsome.bind (hrest hname)) fun _ => ?_
  exact returns_ite_bind (fun _ => hsome) (fun _ => returns_pure fun _ h => by cases h)
    (hrest hname)

theorem shows_declaration? {valueType : Lead → Parser ValueType} {l : Lead}
    (h : Shows (fun v => (Definition.valueType v).Shown) (valueType l)) :
    Shows (fun d? => ∀ d ∈ d?, d.Shown) (declaration? valueType l) := by
  have hsome {d : Definition} (hd : d.Shown) :
      Shows (fun d? => ∀ d ∈ d?, d.Shown) (pure (some d)) :=
    returns_pure fun _ h => by cases h; exact hd
  refine goes_kind?.maintains.bind fun kind? _ => ?_
  split
  · exact (shows_typeDef l).bind fun _ hd => hsome hd
  · exact (shows_native l).bind fun _ hd => hsome hd
  · exact h.bind fun _ hd => hsome hd
  · exact (advances_exceptionType l).maintains.bind fun _ _ => hsome (List.forall_mem_nil _)
  · exact (shows_constant l).bind fun _ hd => hsome hd
  · exact returns_pure fun _ h => by cases h

theorem shows_bare? (l : Lead) : Shows (fun d?? => ∀ d? ∈ d??, ∀ d ∈ d?, d.Shown) (bare? l) := by
  refine returns_ite (fun _ => returns_pure fun _ h => by cases h) fun _ => ?_
  refine (leads_acceptPunct _).maintains.bind fun _ _ =>
    returns_ite (fun _ => returns_pure fun _ h => ?_) fun _ => ?_
  · cases h
    exact fun _ h => by cases h
  · refine returns_isNext_take (fun t _ => returns_pure fun _ h => ?_)
      (returns_pure fun _ h => by cases h)
    cases h
    exact fun _ h => by cases h; exact List.forall_mem_nil _

theorem shows_typedMember (l : Lead) : Shows Definition.Shown (typedMember l) := by
  refine (goes_isNext _).maintains.bind fun _ _ => returns_ite (fun _ => ?_) fun _ => ?_
  · exact (shows_operation l).bind fun _ ho => (advances_expectPunct _ _).maintains.bind fun _ _ =>
      returns_pure ho
  refine shows_typeSpec.bind fun type htype => (returns_identifier _).bind fun name hname => ?_
  refine (goes_isNext _).maintains.bind fun _ _ => returns_ite (fun _ => ?_) fun _ => ?_
  · refine (goes_checkUsable type).maintains.bind fun _ _ =>
      (shows_operationOf l htype hname).bind fun _ ho => ?_
    exact (advances_expectPunct _ _).maintains.bind fun _ _ => returns_pure ho
  · refine goes_dimensions.maintains.bind fun ds _ =>
      (shows_commaMore shows_declarator).bind fun more hmore => ?_
    refine (advances_expectPunct _ _).maintains.bind fun _ _ => returns_pure ?_
    have hfield : Field.Inline ⟨type, .ofDimensions name ds :: more, l.properties⟩ :=
      ⟨htype, List.forall_mem_cons.2 ⟨by rwa [Declarator.name_ofDimensions], hmore⟩⟩
    exact shown_leaf hfield.outline rfl

theorem shows_valueMember : Shows (fun d? => ∀ d ∈ d?, d.Shown) valueMember := by
  refine returns_recurse (J := fun _ => True) (fun member hmember _ _ => ?_) trivial
  refine goes_lead.maintains.bind fun l _ => goes_peek.maintains.bind fun _ _ => ?_
  refine (shows_bare? l).bind fun d?? hd?? => ?_
  split
  next d? => exact returns_pure (hd?? d? rfl)
  refine (shows_constructed? shows_typeSpec l.properties).bind fun r? hr? => ?_
  split
  next type d =>
    refine (goes_isNext _).maintains.bind fun _ _ =>
      returns_ite (fun _ => shows_ended (hr? _ rfl).2) fun _ => ?_
    refine (shows_fieldOf (hr? _ rfl).1 []).bind fun f hf => returns_pure fun _ h => ?_
    cases h
    exact shown_leaf hf.outline rfl
  refine (shows_declaration? (shows_valueTypeOf (hmember () trivial) l)).bind fun d? hd? => ?_
  split
  next d => exact shows_ended (hd? d rfl)
  refine (goes_isNext _).maintains.bind fun _ _ => returns_ite (fun _ => ?_) fun _ => ?_
  · exact (shows_attributes l).bind fun _ ha => shows_ended ha
  · exact (shows_typedMember l).bind fun _ hd => returns_pure fun _ h => by cases h; exact hd

theorem shows_declarationOrType? (l : Lead) :
    Shows (fun d? => ∀ d ∈ d?, d.Shown) (declarationOrType? valueType l) := by
  refine (shows_constructed? shows_typeSpec l.properties).bind fun r? hr => ?_
  cases r? with
  | none => exact shows_declaration? (shows_valueTypeOf shows_valueMember l)
  | some r => exact returns_pure fun _ h => by cases h; exact (hr r rfl).2

theorem shows_interfaceMember : Shows (fun d? => ∀ d ∈ d?, d.Shown) interfaceMember := by
  refine goes_lead.maintains.bind fun l _ => goes_peek.maintains.bind fun _ _ => ?_
  refine (shows_bare? l).bind fun d?? hd?? => ?_
  split
  next d? => exact returns_pure (hd?? d? rfl)
  refine (shows_declarationOrType? l).bind fun d? hd? => ?_
  split
  next d => exact shows_ended (hd? d rfl)
  refine (goes_isNext _).maintains.bind fun _ _ => returns_ite (fun _ => ?_) fun _ => ?_
  · exact (shows_attributes l).bind fun _ ha => shows_ended ha
  · exact (shows_operation l).bind fun _ ho => shows_ended ho

theorem shows_interfaceName : Shows Text.Inline interfaceName := by
  refine returns_peek.bind fun t ht => ?_
  split
  case h_4 => exact returns_of_fails (fails_unexpected _)
  all_goals
    next hkind =>
      have hname : t.text.Inline := by
        first
          | exact ht (.inl hkind)
          | exact ht (.inr ⟨_, hkind⟩)
      refine maintains_take.bind fun _ _ => ?_
      split
      · exact returns_of_fails (fails_fail _)
      · exact returns_pure hname

theorem shows_interface (l : Lead) :
    Shows (fun i => (Definition.interface i).Shown) (interface l) := by
  have hname {name : Text} (h : name.Inline) : Text.Inline ("interface ".toList ++ name) :=
    (inline_of_all rfl).append h
  refine returns_ite (fun _ => returns_of_fails (fails_fail _).bind) fun _ => ?_
  refine (advances_expectKeyword (by decide) _).maintains.bind fun _ _ =>
    shows_interfaceName.bind fun name h => ?_
  refine (goes_isNext _).maintains.bind fun _ _ => (goes_isNext _).maintains.bind fun _ _ => ?_
  refine returns_ite (fun _ => returns_pure ?_) fun _ =>
    (leads_acceptPunct _).maintains.bind fun _ _ => ?_
  · rw [Definition.Shown, Definition.events]
    exact shown_around (((hname h).append Text.inline_nil).append (inline_of_all rfl))
      (List.forall_mem_nil _)
  refine returns_ite_bind (P := fun names => ∀ name ∈ names, name.text.Inline)
    (fun _ => returns_scopedNames) (fun _ => returns_pure fun _ h => by cases h)
    fun supers hsupers => ?_
  refine (advances_expectPunct _ _).maintains.bind fun _ _ => ?_
  refine (shows_manyUntil shows_interfaceMember _).bind fun members hmembers => returns_pure ?_
  rw [Definition.Shown, Definition.events]
  refine shown_around (((hname h).append ?_).append Text.inline_nil) (shown_listEvents hmembers)
  cases supers with
  | nil => exact Text.inline_nil
  | cons first more =>
    refine (inline_of_all rfl).append (inline_commaSeparated fun cs hcs => ?_)
    obtain ⟨n, hn, rfl⟩ := List.mem_map.1 hcs
    exact hsupers n hn

theorem shows_moduleOf {definition : Parser (Option Definition)}
    (h : Shows (fun d? => ∀ d ∈ d?, d.Shown) definition) :
    Shows (fun m => (Definition.module m).Shown) (moduleOf definition) := by
  have hhead : Shows Text.Inline moduleHead := fun _ _ _ => inline_of_moduleHead
  rw [moduleOf_eq]
  refine hhead.bind fun name hname => (advances_expectPunct _ _).maintains.bind fun _ _ => ?_
  refine (shows_manyUntil h _).bind fun ds hds => returns_pure ?_
  rw [Definition.Shown, Definition.events]
  exact shown_around ((inline_of_all rfl).append hname) (shown_listEvents hds)

theorem shows_interfaceOrDeclaration (l : Lead) :
    Shows (fun d? => ∀ d ∈ d?, d.Shown) (interfaceOrDeclaration l) := by
  refine (goes_isNext _).maintains.bind fun _ _ => returns_ite (fun _ => ?_) fun _ => ?_
  · exact (shows_interface l).bind fun _ hi => shows_ended hi
  refine (shows_declarationOrType? l).bind fun d? hd? => ?_
  split
  next d => exact shows_ended (hd? d rfl)
  · exact returns_of_fails (fails_unexpected _)

theorem shows_definition : Shows (fun d? => ∀ d ∈ d?, d.Shown) definition := by
  refine returns_recurse (J := fun _ => True) (fun definition hdefinition _ _ => ?_) trivial
  refine goes_lead.maintains.bind fun l _ => goes_peek.maintains.bind fun t _ => ?_
  refine (shows_bare? l).bind fun d?? hd?? => ?_
  split
  next d? => exact returns_pure (hd?? d? rfl)
  refine returns_ite (fun _ => ?_) fun _ => shows_interfaceOrDeclaration l
  split
  · refine (shows_moduleOf (hdefinition () trivial)).bind fun m hm => ?_
    exact (advances_expectPunct _ _).maintains.bind fun _ _ =>
      returns_pure fun _ h => by cases h; exact hm
  · exact advances_scopedName.maintains.bind fun _ _ => returns_pure fun _ h => by cases h
  · exact advances_scopedName.maintains.bind fun _ _ => returns_pure fun _ h => by cases h
  · exact shows_interfaceOrDeclaration l

theorem shows_specification : Shows (fun spec => ∀ e ∈ spec.events, e.Shown) specification := by
  rw [specification]
  refine Returns.bind (returns_many (P := fun d? => ∀ d ∈ d?, d.Shown) ?_) fun ds hds =>
    returns_pure ?_
  · refine goes_peek?.maintains.bind fun t? _ => ?_
    split
    · exact returns_pure fun _ h => by cases h
    · exact shows_definition.bind fun _ hd => returns_pure fun _ h => by cases h; exact hd
  · refine shown_around (Text.Inline.append (Text.Inline.append (inline_of_all rfl) ?_)
      (inline_of_all rfl)) (shown_listEvents hds)
    exact fun c hc => Pattern.isInline_of_isDigit c (Text.isDigit_of_mem_ofNat c hc)

end Parser

/-! ## Texts -/

namespace Specification

theorem event_of_mem_visits {es : List Event} {around : List Container} :
    ∀ v ∈ Event.visits around es, v.event ∈ es := by
  induction es generalizing around with
  | nil => exact List.forall_mem_nil _
  | cons e es ih =>
    cases e with
    | enter c =>
      exact List.forall_mem_cons.2
        ⟨List.mem_cons_self, fun v hv => List.mem_cons_of_mem _ (ih v hv)⟩
    | leaf l =>
      exact List.forall_mem_cons.2
        ⟨List.mem_cons_self, fun v hv => List.mem_cons_of_mem _ (ih v hv)⟩
    | leave c => exact fun v hv => List.mem_cons_of_mem _ (ih v hv)

theorem count_entry {v : Visit} (h : v.event.Shown) :
    v.entry.count '\n' = v.event.raw.count '\n' := by
  have hfeeds (cs : Text) : cs.count '\n' = (cs.filter isLineEnd).count '\n' :=
    (List.count_filter (p := isLineEnd) rfl).symm
  have hspaces : (List.replicate (2 * v.around.length) ' ').count '\n' =
      0 := by simp [List.count_replicate]
  rw [Visit.entry, List.count_append, hspaces, Nat.zero_add, hfeeds, h, ← hfeeds]

/-- **The lines of the outline of a text.** Whatever text is accepted, the outline is back at
    depth 0 and has one entry for every visit of the walk, in the order of the walk and indented
    by two spaces for every container that is open there. An entry is one line but for the raw
    text of a native type, which is shown as it was written: the line feeds in it make further
    lines. -/
theorem outline_of_ofText {dialect : Dialect} {cs : Text} {spec : Specification}
    (h : Specification.ofText dialect cs = .ok spec) :
    spec.outline.depth = 0 ∧ spec.outline.lines.reverse = spec.visits.map Visit.entry ∧
      (∀ v ∈ spec.visits, v.event.outline.filter isLineEnd = v.event.raw.filter isLineEnd) ∧
      spec.outline.text.count '\n' =
        spec.visits.length + (spec.visits.map fun v => v.event.raw.count '\n').sum := by
  obtain ⟨hdepth, hlines⟩ := spec.outline_eq
  have hshown : ∀ v ∈ spec.visits, v.event.Shown := by
    unfold Specification.ofText at h
    rcases hrun : Parser.specification.run (.ofText dialect cs) with ⟨r, u⟩
    rw [hrun] at h
    cases h
    obtain ⟨-, hevents⟩ :=
      Parser.shows_specification _ _ _ (TokenStream.inline_ofText dialect cs) hrun
    exact fun v hv => hevents _ (event_of_mem_visits v hv)
  refine ⟨hdepth, hlines, hshown, ?_⟩
  have hlength : spec.outline.lines.length = spec.visits.length := by
    rw [← List.length_reverse, hlines, List.length_map]
  have hsum : (spec.outline.lines.map (List.count '\n')).sum =
      (spec.visits.map fun v => v.event.raw.count '\n').sum := by
    rw [← List.sum_reverse, ← List.map_reverse, hlines, List.map_map]
    exact congrArg List.sum (List.map_congr_left fun v hv => count_entry (hshown v hv))
  rw [Outline.count_text, hlength, hsum]

/-- The line feed in the raw text of a native type makes a third line of two visits. -/
theorem outline_of_ofText_native :
    ∃ spec, Specification.ofText .omg "native N (a\nb);".toList = .ok spec ∧
      spec.outline.text = "specification (1 definitions)\n  native N (a\nb)\n".toList ∧
      spec.outline.text.count '\n' = spec.visits.length + 1 := by
  have hok : Specification.ofText .omg "native N (a\nb);".toList =
      .ok ⟨[.native ⟨['N'], some "a\nb".toList, []⟩]⟩ := by decide +kernel
  obtain ⟨-, -, -, hcount⟩ := outline_of_ofText hok
  exact ⟨_, hok, by decide +kernel, hcount⟩

end Specification

end IdlFrontend
