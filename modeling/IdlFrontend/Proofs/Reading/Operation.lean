import IdlFrontend.Grammar.Definition
import IdlFrontend.Proofs.Lexer.Regular
import IdlFrontend.Proofs.Reading.Property
import IdlFrontend.Proofs.Reading.Type

/-!
# Reading operations

An operation is written with its modifiers first, then its properties, and with every direction of a
parameter as a word of its own. Variable arguments are dots behind the parameters, or else they have
a type, and a name that is not kept.

Results:

* `reads_parameters`: the parameters and the variable arguments.
* `reads_operation`: an operation as a whole.
-/

namespace IdlFrontend

/-! ## Words -/

/-- The keyword that a direction is written as. -/
def Direction.keyword : Direction → Keyword
  | .inward => .inward
  | .outward => .out
  | .optional => .optional

/-- What stands in front of the type of a parameter, and the type. -/
def Parameter.leadWords (p : Parameter) : List Word :=
  p.directions.map (fun d => .keyword d.keyword) ++
    (propertyWords p.properties ++ (p.type.words ++ if p.nullable then [.punct .question] else []))

/-- The words of a parameter. -/
def Parameter.words (p : Parameter) : List Word :=
  p.leadWords ++ .identifier p.name :: p.value?.elim [] fun e => .punct .equal :: e.words false 0

/-- The words of variable arguments, which have a type if they have a name. -/
def varargsWords (varargs : Parameter) : Option Text → List Word
  | none => [.punct .ellipsis]
  | some name => varargs.leadWords ++ [.punct .ellipsis, .identifier name]

/-- The words of a list in parentheses behind a keyword, if there is a list. -/
def clauseWords {α : Type} (k : Keyword) (f : α → List Word) : Option (List α) → List Word
  | none => []
  | some as => .keyword k :: .punct .openParen :: (separated .comma f as ++ [.punct .closeParen])

/-- The words of an operation behind its lead. The name is that of its variable arguments. -/
def Operation.typeWords (o : Operation) (name? : Option Text) : List Word :=
  o.returnType.words ++ .identifier o.name :: .punct .openParen ::
    (separated .comma id (o.parameters.map Parameter.words ++
      (o.varargs.map (varargsWords · name?)).toList) ++ .punct .closeParen ::
        (clauseWords .raises ScopedName.words o.raises ++
          clauseWords .context (fun text => [.string text]) o.context))

/-- The modifiers and the properties of an operation. -/
def Operation.lead (o : Operation) : Lead := ⟨o.modifiers, o.properties⟩

/-- The words of an operation. -/
def Operation.words (o : Operation) (name? : Option Text) : List Word :=
  o.lead.words ++ o.typeWords name?

/-! ## Legal operations -/

/-- A type whose values can be passed, or the type of no value. -/
def TypeSpec.IsUsable (d : Dialect) (t : TypeSpec) : Prop :=
  t = .basic .void ∨ t.IsTemplate d ∧ ∀ element bound, t ≠ .sequence element bound

/-- What a parameter and variable arguments have in common: a type that can be null if it is one of
    values, and properties. -/
structure Parameter.IsTyped (d : Dialect) (p : Parameter) : Prop where
  type : p.type.IsUsable d
  nullable : p.type = .basic .void → p.nullable = false
  properties : ProperProperties d p.properties

/-- A parameter that the dialect allows. -/
structure Parameter.IsLegal (d : Dialect) (p : Parameter) : Prop extends p.IsTyped d where
  name : IsToken d .ordinary .identifier p.name
  distinct : p.directions.Nodup
  directed : d = .omg → (.inward ∈ p.directions ∨ .outward ∈ p.directions) ∧
    .optional ∉ p.directions
  value : ∀ e ∈ p.value?, .optional ∈ p.directions ∧ e.IsWritable d

/-- Variable arguments that can be written without a name, or with it if there are no parameters. -/
def VarargsLegal (d : Dialect) (parameters : List Parameter) (varargs : Parameter) :
    Option Text → Prop
  | none => varargs = .variable (.basic .any) false []
  | some name => parameters = [] ∧ IsToken d .ordinary .identifier name ∧ varargs.IsTyped d ∧
    varargs = .variable varargs.type varargs.nullable varargs.properties

/-- An operation that the dialect allows. -/
structure Operation.IsLegal (d : Dialect) (o : Operation) (name? : Option Text) : Prop where
  name : IsToken d .ordinary .identifier o.name
  returnType : o.returnType.IsUsable d
  modifiers : o.modifiers.Nodup
  properties : ProperProperties d o.properties
  parameters : ∀ p ∈ o.parameters, p.IsLegal d
  varargs : ∀ v ∈ o.varargs, VarargsLegal d o.parameters v name?
  raises : ∀ xs ∈ o.raises, xs ≠ [] ∧ ∀ x ∈ xs, x.IsWritable d
  context : ∀ ts ∈ o.context, ts ≠ [] ∧ ∀ text ∈ ts,
    IsToken d .ordinary .string (Word.string text).text

variable {d : Dialect} {n : Nat} {w : Word} {ws us : List Word} {l : Lexer} {t : TypeSpec}

/-- The words of a type begin like a type that is not constructed, or with the word for none. -/
theorem TypeSpec.IsUsable.exists_words (ht : t.IsUsable d) :
    ∃ w vs, t.words = w :: vs ∧ w ≠ .closing ∧
      (Parser.startsType w.kind ∨ w.kind = .keyword .void) ∧
      w.kind ∉ [.keyword .struct, .keyword .union, .keyword .enum] := by
  rcases ht with rfl | ⟨ht, -⟩
  · exact ⟨.keyword .void, [], rfl, by rintro ⟨⟩, .inr rfl, by decide⟩
  · obtain ⟨w, vs, hwords, hw, hstarts, hkind⟩ := ht.exists_words
    exact ⟨w, vs, hwords, hw, .inl hstarts, hkind⟩

theorem TypeSpec.IsUsable.avoids (ht : t.IsUsable d) {K : TokenKind → Prop}
    (hK : ∀ kind, K kind → Parser.startsType kind = false ∧ kind ≠ .keyword .void) :
    Place.Avoids K ⟨n, t.words ++ us, l⟩ := by
  obtain ⟨w, vs, hwords, hw, hstarts, -⟩ := ht.exists_words
  rw [hwords]
  refine Place.avoids_word hw fun hkind => ?_
  obtain ⟨hnot, hvoid⟩ := hK _ hkind
  rcases hstarts with hstarts | hstarts
  · rw [hnot] at hstarts
    cases hstarts
  · exact hvoid hstarts

/-! ## Dialects -/

theorem Lexer.Gives.dialect_eq {l' : Lexer} (h : l.Gives ws l') :
    l.dialect = l'.dialect := by
  induction h with
  | nil => rfl
  | @cons l m m' l' t ws us hnext hoffers _ ih =>
    have hdialect := (Lexer.regular_of_next l).1
    rw [hnext] at hdialect
    rw [← ih, ← hdialect]
    cases hoffers <;> rfl

/-- The dialect is the same everywhere. -/
theorem TokenStream.At.dialect_eq {s : TokenStream} {P : Place} (h : s.At P) :
    s.lexer.dialect = P.lexer.dialect := by
  obtain ⟨n, ws, l⟩ := P
  cases h.supplies with
  | unread _ hgives => exact hgives.dialect_eq
  | ahead _ hoffers hgives =>
    rw [← hgives.dialect_eq]
    cases hoffers <;> rfl
  | beyond hnext =>
    have hdialect := (Lexer.regular_of_next l).1
    dsimp only at hnext
    rw [hnext] at hdialect
    exact hdialect

namespace Parser

/-! ## Types -/

theorem reads_usableType (ht : t.IsTemplate d)
    (hsequence : ∀ element bound, t ≠ .sequence element bound) (hend : Place.EndsType ⟨n, us, l⟩) :
    Reads usableType ⟨n, t.words ++ us, l⟩ t ⟨n, us, l⟩ := by
  have hsimple : Reads simpleType ⟨n, t.words ++ us, l⟩ t ⟨n, us, l⟩ := reads_simpleType ht hend
  obtain ⟨w, vs, hwords, hw, -, hkind⟩ := ht.exists_words
  rw [hwords] at hsimple ⊢
  refine Reads.bind (reads_kind? hw) ?_
  split
  next heq => exact absurd (by rw [Option.some.inj heq]; decide) hkind
  next heq => exact absurd (by rw [Option.some.inj heq]; decide) hkind
  next heq => exact absurd (by rw [Option.some.inj heq]; decide) hkind
  · have hcheck : checkUsable t = pure () := by
      unfold checkUsable
      split
      · exact absurd rfl (hsequence _ _)
      · rfl
    refine hsimple.bind ?_
    rw [hcheck]
    exact Reads.bind (reads_pure _ _) (reads_pure _ _)

theorem avoids_void (ht : t.IsTemplate d) :
    Place.Avoids (· = .keyword .void) ⟨n, t.words ++ us, l⟩ := by
  obtain ⟨w, vs, hwords, hw, hstarts, -⟩ := ht.exists_words
  rw [hwords]
  refine Place.avoids_word hw fun hkind => ?_
  rw [hkind] at hstarts
  cases hstarts

/-- The type of a result, before what is read behind it. -/
theorem reads_returnType {β : Type} {f : TypeSpec → Parser β} {b : β} {Q : Place}
    (ht : t.IsUsable d) (hend : Place.EndsType ⟨n, us, l⟩) (h : Reads (f t) ⟨n, us, l⟩ b Q) :
    Reads (do
      let type ← if ← acceptKeyword .void then pure (.basic .void) else usableType
      f type) ⟨n, t.words ++ us, l⟩ b Q := by
  rcases ht with rfl | ⟨ht, hsequence⟩
  · exact (reads_acceptKeyword .void).bind (Reads.bind (reads_pure _ _) h)
  · refine (reads_accept_false (avoids_void ht)).bind ?_
    exact Reads.bind (reads_usableType ht hsequence hend) h

/-- What comes next is not the rest of the type of a parameter. -/
def EndsParameterType (P : Place) : Prop :=
  P.Avoids fun kind =>
    kind ∈ [.punct .scope, .keyword .long, .keyword .double, .punct .less, .punct .question]

theorem EndsParameterType.endsType {P : Place} (h : EndsParameterType P) : P.EndsType :=
  Place.Avoids.mono h fun kind hkind => by
    simp only [List.mem_cons] at hkind ⊢
    tauto

theorem reads_parameterType {nullable : Bool} (ht : t.IsUsable d)
    (hnullable : t = .basic .void → nullable = false) (hend : EndsParameterType ⟨n, us, l⟩) :
    Reads parameterType ⟨n, t.words ++ ((if nullable then [.punct .question] else []) ++ us), l⟩
      (t, nullable) ⟨n, us, l⟩ := by
  rcases ht with rfl | ⟨ht, hsequence⟩
  · rw [hnullable rfl]
    exact (reads_acceptKeyword .void).bind (reads_pure _ _)
  · refine (reads_accept_false (avoids_void ht)).bind ?_
    cases nullable with
    | true =>
      refine Reads.bind (reads_usableType ht hsequence (Place.endsType_cons (by decide))) ?_
      exact (reads_acceptPunct (by decide)).bind (reads_pure _ _)
    | false =>
      refine Reads.bind (reads_usableType ht hsequence hend.endsType) ?_
      refine Reads.bind (reads_accept_false ?_) (reads_pure _ _)
      exact Place.Avoids.mono hend fun kind hkind => by rw [hkind]; decide

/-! ## Parameters -/

/-- Directions, of which none is repeated, and then properties. -/
theorem reads_parameterLead {m : ParameterLead} (hdirections : m.directions.Nodup)
    (hkeys : (m.properties.map Property.key).Nodup) (hend : EndsLead directions? ⟨n, us, l⟩) :
    Reads parameterLead
      ⟨n, m.directions.map (fun d => .keyword d.keyword) ++ (propertyWords m.properties ++ us), l⟩ m
      ⟨n, us, l⟩ := by
  refine (rounds_lead ParameterLead.mk (fun more s => ?_) (fun hne more s hmore => ?_)
    (fun more s before a vs hfresh hmore => ?_) hdirections).reads_recurse
  · refine Reads.bind (reads_isNext_false hend.avoids) ?_
    refine (finds_kind? hend.canLook).bind fun _ ⟨t?, hsees, hkind⟩ => ?_
    rw [hkind, hend.bind_kind hsees]
    exact reads_pure s _
  · exact reads_isPunct_propertyList hne hkeys hmore
  · refine Reads.bind (reads_isNext_false (Place.avoids_word (by rintro ⟨⟩) (by rintro ⟨⟩))) ?_
    refine Reads.bind (reads_kind? (by rintro ⟨⟩)) ?_
    have hkind : (some (Word.keyword a.keyword).kind).bind directions? = some [a] := by
      cases a <;> rfl
    have hadd : addDirections before [a] = pure (before ++ [a]) := by
      rw [addDirections, if_neg (by simpa using hfresh)]
      rfl
    rw [hkind]
    dsimp only
    rw [hadd]
    refine Reads.bind (reads_pure _ _) ?_
    exact (finds_take (.keyword a.keyword) (by rintro ⟨⟩) (by rintro ⟨⟩)).bind fun _ _ => hmore

theorem endsLead_of_usable {α : Type} {f : TokenKind → Option α} (ht : t.IsUsable d)
    (hf : ∀ kind, (f kind).isSome → startsType kind = false ∧ kind ≠ .keyword .void) :
    EndsLead f ⟨n, t.words ++ us, l⟩ :=
  ht.avoids fun kind hkind =>
    hkind.elim (fun hbracket => by rw [hbracket]; exact ⟨rfl, by rintro ⟨⟩⟩) (hf kind)

theorem directions?_isSome {kind : TokenKind} (h : (directions? kind).isSome) :
    startsType kind = false ∧ kind ≠ .keyword .void := by
  unfold directions? at h
  split at h <;> first | exact ⟨rfl, by rintro ⟨⟩⟩ | cases h

/-- What stands in front of the name of a parameter, or of the dots of variable arguments. -/
theorem reads_parameterStart {β : Type} {f : ParameterLead → TypeSpec × Bool → Parser β} {b : β}
    {Q : Place} {p : Parameter} (hp : p.IsTyped d) (hdirections : p.directions.Nodup)
    (hend : EndsParameterType ⟨n, us, l⟩)
    (h : Reads (f ⟨p.directions, p.properties⟩ (p.type, p.nullable)) ⟨n, us, l⟩ b Q) :
    Reads (do
      let m ← parameterLead
      let t ← parameterType
      f m t) ⟨n, p.leadWords ++ us, l⟩ b Q := by
  rw [Parameter.leadWords, List.append_assoc, List.append_assoc, List.append_assoc]
  refine Reads.bind (reads_parameterLead (m := ⟨p.directions, p.properties⟩) hdirections
    hp.properties.distinct (endsLead_of_usable hp.type fun _ => directions?_isSome)) ?_
  exact (reads_parameterType hp.type hp.nullable hend).bind h

/-- A parameter begins with a direction, a property list or its type. -/
theorem avoids_parameter {p : Parameter} (hp : p.IsTyped d) {K : TokenKind → Prop}
    (hK : ∀ kind, K kind → startsType kind = false ∧
      kind ∉ [.keyword .void, .keyword .inward, .keyword .out, .keyword .optional,
        .punct .openBracket]) :
    Place.Avoids K ⟨n, p.leadWords ++ us, l⟩ := by
  unfold Parameter.leadWords
  cases hdirections : p.directions with
  | cons a as =>
    refine Place.avoids_word (by rintro ⟨⟩) fun hkind => (hK _ hkind).2 ?_
    cases a <;> decide
  | nil =>
    cases hproperties : p.properties with
    | cons q qs => exact Place.avoids_word (by rintro ⟨⟩) fun hkind => (hK _ hkind).2 (by decide)
    | nil =>
      rw [List.map_nil, List.nil_append, propertyWords, List.nil_append, List.append_assoc]
      refine hp.type.avoids fun kind hkind => ?_
      obtain ⟨hstarts, hnot⟩ := hK kind hkind
      exact ⟨hstarts, fun hvoid => hnot (by rw [hvoid]; exact List.mem_cons_self)⟩

/-! ## Named parameters -/

theorem reads_checkedParameter {p : Parameter} {P : Place} (hp : p.IsLegal d)
    (hd : P.lexer.dialect = d) : Reads (checkedParameter p) P p P := by
  have hdirected (s : TokenStream) (hs : s.At P) :
      (!(p.directions.contains .inward || p.directions.contains .outward) &&
        s.lexer.dialect != .web) = false := by
    rw [hs.dialect_eq, hd]
    cases d with
    | web => exact Bool.and_false _
    | omg => simpa [or_iff_not_imp_left] using (hp.directed rfl).1
  have hvalue : (!p.directions.contains .optional && p.value?.isSome) = false := by
    cases hsome : p.value? with
    | none => exact Bool.and_false _
    | some e => simpa using (hp.value e hsome).1
  refine (finds_get P).bind fun s hs => ?_
  rw [hdirected s hs, hvalue]
  exact reads_pure p P

theorem reads_namedParameter {p : Parameter} (hp : p.IsLegal d) (hd : l.dialect = d)
    (hend : EndsItem .closeParen us) :
    Reads (namedParameter ⟨p.directions, p.properties⟩ p.type p.nullable)
      ⟨0, .identifier p.name :: ((p.value?.elim [] fun e => .punct .equal :: e.words false
      0) ++ us), l⟩ p ⟨0, us, l⟩ := by
  have hchecked := reads_checkedParameter (P := ⟨0, us, l⟩) hp hd
  obtain ⟨name, type, nullable, directions, value?, properties⟩ := p
  refine (reads_identifier name _).bind ?_
  cases value? with
  | none =>
    refine Reads.bind (reads_accept_false ?_) (Reads.bind (reads_pure none _) hchecked)
    cases hend <;> exact Place.avoids_word (by rintro ⟨⟩) (by rintro ⟨⟩)
  | some e =>
    have he := (hp.value e rfl).2.isProper
    have hsentence := ConstExpr.sentence_words he false (Nat.zero_le 7)
    have hstops : Place.Stops 0 ⟨0, us, l⟩ := by cases hend <;> exact Place.stops_punct (by decide)
    refine (reads_acceptPunct (by decide)).bind ?_
    exact Reads.bind ((hsentence.reads_constExpr (by simp) hstops).map some) hchecked

/-! ## Parameter lists -/

variable {more : List Parameter → Parser (List Parameter × Option Parameter)}
  {before : List Parameter} {r : List Parameter × Option Parameter} {Q : Place}

/-- No parameter begins like untyped variable arguments. -/
theorem reads_acceptVarargs_false {p : Parameter} (hp : p.IsTyped d) :
    Reads acceptVarargs ⟨n, p.leadWords ++ us, l⟩ false ⟨n, p.leadWords ++ us, l⟩ := by
  refine Reads.bind (reads_accept_false (avoids_parameter hp fun kind hkind => ?_))
    (reads_accept_false (avoids_parameter hp fun kind hkind => ?_))
  · rw [hkind]
    decide
  · rw [hkind]
    decide

theorem reads_parameterRound_named {p : Parameter} (hp : p.IsLegal d) (hd : l.dialect = d)
    (hend : EndsItem .closeParen us)
    (h : Reads (parameterNext more (before ++ [p])) ⟨0, us, l⟩ r Q) :
    Reads (parameterRound more before) ⟨0, p.words ++ us, l⟩ r Q := by
  have hends {vs : List Word} : EndsParameterType ⟨0, .identifier p.name :: vs, l⟩ :=
    Place.avoids_word (by rintro ⟨⟩) (by simp [Word.kind])
  rw [Parameter.words, List.append_assoc]
  refine Reads.bind (reads_acceptVarargs_false hp.toIsTyped) ?_
  refine reads_parameterStart hp.toIsTyped hp.distinct hends ?_
  refine Reads.bind (reads_accept_false (Place.avoids_word (by rintro ⟨⟩) (by rintro ⟨⟩))) ?_
  exact Reads.bind (reads_namedParameter hp hd hend) h

theorem reads_parameterRound_untyped :
    Reads (parameterRound more before) ⟨n, .punct .ellipsis :: .punct .closeParen :: us, l⟩
      (before, some (.variable (.basic .any) false [])) ⟨n, us, l⟩ := by
  have haccept : Reads acceptVarargs ⟨n, .punct .ellipsis :: .punct .closeParen :: us, l⟩ true
      ⟨n, .punct .closeParen :: us, l⟩ := (reads_acceptPunct (by decide)).bind (reads_pure true _)
  exact haccept.bind ((reads_expectPunct _ (by decide)).bind (reads_pure _ _))

theorem reads_parameterRound_typed {v : Parameter} {name : Text} (hv : v.IsTyped d)
    (heq : v = .variable v.type v.nullable v.properties) :
    Reads (parameterRound more []) ⟨n, v.leadWords ++ .punct .ellipsis :: .identifier name ::
      .punct .closeParen :: us, l⟩ ([], some v) ⟨n, us, l⟩ := by
  have hdirections : v.directions = [.inward] := by rw [heq]; rfl
  have hends {vs : List Word} : EndsParameterType ⟨n, .punct .ellipsis :: vs, l⟩ :=
    Place.avoids_word (by rintro ⟨⟩) (by decide)
  refine Reads.bind (reads_acceptVarargs_false hv) ?_
  refine reads_parameterStart hv (by rw [hdirections]; decide) hends ?_
  refine (reads_acceptPunct (by decide)).bind ?_
  have hvarargs : Reads (typedVarargs ⟨v.directions, v.properties⟩ v.type v.nullable)
      ⟨n, .identifier name :: .punct .closeParen :: us, l⟩ v ⟨n, .punct .closeParen :: us, l⟩ := by
    rw [hdirections]
    exact (reads_identifier name _).bind (reads_pure_of_eq heq.symm _)
  exact hvarargs.bind ((reads_expectPunct _ (by decide)).bind (reads_pure _ _))

theorem reads_parameterRound_varargs {v : Parameter} {name? : Option Text}
    (hv : VarargsLegal d before v name?) :
    Reads (parameterRound more before)
      ⟨n, varargsWords v name? ++ .punct .closeParen :: us, l⟩ (before, some v) ⟨n, us, l⟩ := by
  cases name? with
  | none =>
    obtain rfl : v = _ := hv
    exact reads_parameterRound_untyped
  | some name =>
    obtain ⟨rfl, -, htyped, heq⟩ := hv
    rw [varargsWords, List.append_assoc]
    exact reads_parameterRound_typed htyped heq

/-- Parameters and variable arguments behind the parameters `before`, if there are any. -/
theorem reads_parametersAfter {ps : List Parameter} {varargs : Option Parameter}
    {name? : Option Text} (hps : ∀ p ∈ ps, p.IsLegal d) (hd : l.dialect = d)
    (hvarargs : ∀ v ∈ varargs, VarargsLegal d (before ++ ps) v name?)
    (hne : ps ≠ [] ∨ varargs ≠ none) :
    Reads (parametersAfter before)
      ⟨0, separated .comma id
        (ps.map Parameter.words ++ (varargs.map (varargsWords · name?)).toList) ++
        .punct .closeParen :: us, l⟩ (before ++ ps, varargs) ⟨0, us, l⟩ := by
  refine Rounds.reads_recurse ?_
  show Rounds parameterRound _ _ _ _
  induction ps generalizing before with
  | nil =>
    obtain ⟨v, rfl⟩ := Option.ne_none_iff_exists'.1 (hne.resolve_left fun h => h rfl)
    rw [List.append_nil] at hvarargs ⊢
    refine .last fun more => ?_
    show Reads _ ⟨0, separated .comma id [varargsWords v name?] ++ .punct .closeParen :: us, l⟩ _ _
    rw [separated_singleton]
    exact reads_parameterRound_varargs (hvarargs v rfl)
  | cons p ps ih =>
    rw [List.forall_mem_cons] at hps
    rw [List.append_cons before p ps] at hvarargs ⊢
    rw [List.map_cons, List.cons_append]
    have hempty : ps.map Parameter.words ++ (varargs.map (varargsWords · name?)).toList = [] ↔
        ps = [] ∧ varargs = none := by simp
    cases hitems : ps.map Parameter.words ++ (varargs.map (varargsWords · name?)).toList with
    | nil =>
      obtain ⟨rfl, rfl⟩ := hempty.1 hitems
      rw [separated_singleton, id_eq, List.append_nil]
      refine .last fun more => reads_parameterRound_named hps.1 hd (.close us) ?_
      refine Reads.bind (reads_accept_false (Place.avoids_word (by rintro ⟨⟩) (by rintro ⟨⟩))) ?_
      exact (reads_expectPunct _ (by decide)).bind (reads_pure _ _)
    | cons item items =>
      have hmore : ps ≠ [] ∨ varargs ≠ none := by
        rw [hitems] at hempty
        by_contra hnot
        rw [not_or, not_not, not_not] at hnot
        exact List.cons_ne_nil _ _ (hempty.2 hnot)
      rw [hitems] at ih
      rw [separated_cons_cons, id_eq, List.append_assoc, List.cons_append]
      refine .next (Place.size_lt_append_cons p.words (.punct .comma) _ l) (fun more hmore => ?_)
        (ih hps.2 hvarargs hmore)
      refine reads_parameterRound_named hps.1 hd (.comma _) ?_
      exact (reads_acceptPunct (by decide)).bind hmore

/-- The list of parameters in its parentheses. -/
theorem reads_parameters {o : Operation} {name? : Option Text} (ho : o.IsLegal d name?)
    (hd : l.dialect = d) :
    Reads parameters
      ⟨0, .punct .openParen :: (separated .comma id (o.parameters.map Parameter.words ++
        (o.varargs.map (varargsWords · name?)).toList) ++ .punct .closeParen :: us), l⟩
      (o.parameters, o.varargs) ⟨0, us, l⟩ := by
  have hclose {p : Parameter} (hp : p.IsTyped d) {vs : List Word} :
      Place.Avoids (· = .punct .closeParen) ⟨0, p.leadWords ++ vs, l⟩ := by
    refine avoids_parameter hp fun kind hkind => ?_
    rw [hkind]
    decide
  have hafter (hne : o.parameters ≠ [] ∨ o.varargs ≠ none) : Reads (parametersAfter [])
      ⟨0, separated .comma id (o.parameters.map Parameter.words ++
        (o.varargs.map (varargsWords · name?)).toList) ++ .punct .closeParen :: us, l⟩
      (o.parameters, o.varargs) ⟨0, us, l⟩ :=
    reads_parametersAfter ho.parameters hd ho.varargs hne
  refine (reads_expectPunct _ (by decide)).bind ?_
  cases hparameters : o.parameters with
  | cons p ps =>
    rw [hparameters] at hafter
    have hp := ho.parameters p (by rw [hparameters]; exact List.mem_cons_self)
    refine Reads.bind (reads_accept_false ?_) (hafter (.inl (by rintro ⟨⟩)))
    rw [List.map_cons, List.cons_append, separated, id_eq, Parameter.words, List.append_assoc,
      List.append_assoc]
    exact hclose hp.toIsTyped
  | nil =>
    cases hvarargs : o.varargs with
    | none => exact (reads_acceptPunct (by decide)).bind (reads_pure _ _)
    | some v =>
      rw [hparameters, hvarargs] at hafter
      refine Reads.bind (reads_accept_false ?_) (hafter (.inr (by rintro ⟨⟩)))
      cases name? with
      | none => exact Place.avoids_word (by rintro ⟨⟩) (by rintro ⟨⟩)
      | some name =>
        have hv := (ho.varargs v hvarargs).2.2.1
        rw [List.map_nil, List.nil_append, Option.map_some, Option.toList_some,
          separated_singleton, id_eq, varargsWords, List.append_assoc]
        exact hclose hv

/-! ## Operations -/

/-- A clause that may be missing, before what is read behind it. -/
theorem reads_clause {α β : Type} {k : Keyword} {p : Parser (List α)} {f : α → List Word}
    {as? : Option (List α)} {g : Option (List α) → Parser β} {b : β} {Q : Place}
    (hlist : ∀ as ∈ as?, Reads p
      ⟨n, .punct .openParen :: (separated .comma f as ++ .punct .closeParen :: us), l⟩ as
      ⟨n, us, l⟩)
    (havoid : Place.Avoids (· = .keyword k) ⟨n, us, l⟩) (h : Reads (g as?) ⟨n, us, l⟩ b Q) :
    Reads (do
      let as? ← if ← acceptKeyword k then some <$> p else pure none
      g as?) ⟨n, clauseWords k f as? ++ us, l⟩ b Q := by
  cases as? with
  | none => exact Reads.bind (reads_accept_false havoid) (Reads.bind (reads_pure none _) h)
  | some as =>
    rw [clauseWords, List.cons_append, List.cons_append, List.append_assoc]
    exact (reads_acceptKeyword k).bind (Reads.bind ((hlist as rfl).map some) h)

/-- A list in parentheses whose items end with a comma or the closing one. -/
theorem reads_parenthesizedList {α : Type} {p : Parser α} {f : α → List Word} {as : List α}
    {before behind : String} (has : as ≠ [])
    (hitem : ∀ a ∈ as, ∀ vs, EndsItem .closeParen vs → Reads p ⟨n, f a ++ vs, l⟩ a ⟨n, vs, l⟩) :
    Reads (do
      expectPunct .openParen before
      let as ← commaList p
      expectPunct .closeParen behind
      return as)
      ⟨n, .punct .openParen :: (separated .comma f as ++ .punct .closeParen :: us), l⟩ as
      ⟨n, us, l⟩ := by
  refine (reads_expectPunct _ (by decide)).bind ?_
  have havoid : Place.Avoids (· = .punct .comma) ⟨n, .punct .closeParen :: us, l⟩ :=
    Place.avoids_word (by rintro ⟨⟩) (by rintro ⟨⟩)
  refine (reads_commaList has hitem .comma (.close us) havoid).bind ?_
  exact (reads_expectPunct _ (by decide)).bind (reads_pure _ _)

theorem reads_raisesList {xs : List ScopedName} (hxs : xs ≠ []) :
    Reads raisesList
      ⟨n, .punct .openParen :: (separated .comma ScopedName.words xs ++ .punct .closeParen :: us),
      l⟩ xs ⟨n, us, l⟩ :=
  reads_parenthesizedList hxs fun x _ vs hvs => reads_scopedName x <| by
    cases hvs <;> exact Place.avoids_word (by rintro ⟨⟩) (by rintro ⟨⟩)

theorem reads_contextItem (text : Text) {vs : List Word} (hvs : EndsItem .closeParen vs) :
    Reads contextItem ⟨n, .string text :: vs, l⟩ text ⟨n, vs, l⟩ := by
  refine (finds_expect (.string text) (by rintro ⟨⟩) (by rintro ⟨⟩) rfl).bind fun t ht => ?_
  have hend : Reads nextString ⟨n, vs, l⟩ none ⟨n, vs, l⟩ := by
    refine (reads_isNext_false ?_).bind (reads_pure _ _)
    cases hvs <;> exact Place.avoids_word (by rintro ⟨⟩) (by rintro ⟨⟩)
  refine ((Items.nil _).reads_many hend).bind (reads_pure_of_eq ?_ _)
  rw [List.map_singleton, body_of_word_string ht, List.flatten_singleton]

theorem reads_contextList {ts : List Text} (hts : ts ≠ []) :
    Reads contextList ⟨n, .punct .openParen ::
      (separated .comma (fun text => [.string text]) ts ++ .punct .closeParen :: us), l⟩ ts
        ⟨n, us, l⟩ :=
  reads_parenthesizedList hts fun text _ _ hvs => reads_contextItem text hvs

/-- An operation behind its lead, in front of a semicolon. -/
theorem reads_operation {o : Operation} {name? : Option Text} (ho : o.IsLegal d name?)
    (hd : l.dialect = d) :
    Reads (operation o.lead) ⟨0, o.typeWords name? ++ .punct .semicolon :: us, l⟩ o
      ⟨0, .punct .semicolon :: us, l⟩ := by
  have hname {vs : List Word} : Place.EndsType ⟨0, .identifier o.name :: vs, l⟩ :=
    Place.avoids_word (by rintro ⟨⟩) (by simp [Word.kind])
  have hcontext : Place.Avoids (· = .keyword .raises) ⟨0,
      clauseWords .context (fun text => [.string text]) o.context ++ .punct .semicolon ::
        us, l⟩ := by
    cases o.context <;> exact Place.avoids_word (by rintro ⟨⟩) (by rintro ⟨⟩)
  rw [Operation.typeWords, List.append_assoc, List.cons_append, List.cons_append, List.append_assoc,
    List.cons_append, List.append_assoc]
  refine reads_returnType ho.returnType hname ((reads_identifier o.name _).bind ?_)
  refine (reads_parameters ho hd).bind ?_
  refine reads_clause (fun xs hxs => reads_raisesList (ho.raises xs hxs).1) hcontext ?_
  refine reads_clause (fun ts hts => reads_contextList (ho.context ts hts).1)
    (Place.avoids_word (by rintro ⟨⟩) (by rintro ⟨⟩)) ?_
  exact reads_pure o _

end Parser

/-! ## Texts -/

theorem TypeSpec.IsUsable.writable_words (ht : t.IsUsable d) :
    Writable d .ordinary t.words .ordinary := by
  rcases ht with rfl | ⟨ht, -⟩
  · exact .keyword (by cases d <;> rfl) (by rintro ⟨⟩) (.nil _)
  · exact TypeSpec.writable_words ht

theorem Direction.isIn_keyword {a : Direction} (h : d = .omg → a ≠ .optional) :
    a.keyword.isIn d := by
  cases a with
  | optional => cases d with
    | omg => exact absurd rfl (h rfl)
    | web => rfl
  | _ => cases d <;> rfl

theorem Parameter.IsTyped.writable_leadWords {p : Parameter} (hp : p.IsTyped d)
    (hdirections : d = .omg → .optional ∉ p.directions) :
    Writable d .ordinary p.leadWords .ordinary := by
  rw [leadWords, ← List.flatMap_pure_eq_map]
  refine .append (.flatMap fun a ha => ?_)
    ((writable_propertyWords hp.properties.writable).append ?_)
  · refine .keyword (Direction.isIn_keyword fun hd h => hdirections hd (h ▸ ha)) ?_ (.nil _)
    cases a <;> rintro ⟨⟩
  · refine hp.type.writable_words.append ?_
    split
    · exact .punct .question (.nil _)
    · exact .nil _

theorem Parameter.IsLegal.writable_words {p : Parameter} (hp : p.IsLegal d) :
    Writable d .ordinary p.words .ordinary := by
  refine (hp.toIsTyped.writable_leadWords fun hd => (hp.directed hd).2).append ?_
  refine .token hp.name (by simp) (by rintro ⟨⟩) ?_
  cases hvalue : p.value? with
  | none => exact .nil _
  | some e => exact .punct .equal (ConstExpr.writable_words (hp.value e hvalue).2 false 0)

theorem VarargsLegal.writable_words {parameters : List Parameter} {v : Parameter}
    {name? : Option Text} (hv : VarargsLegal d parameters v name?) :
    Writable d .ordinary (varargsWords v name?) .ordinary := by
  cases name? with
  | none => exact .punct .ellipsis (.nil _)
  | some name =>
    obtain ⟨-, hname, htyped, heq⟩ := hv
    have hdirections : v.directions = [.inward] := by rw [heq]; rfl
    refine (htyped.writable_leadWords fun _ => by rw [hdirections]; decide).append ?_
    exact .punct .ellipsis (.token hname (by simp) (by rintro ⟨⟩) (.nil _))

theorem writable_separated {α : Type} {f : α → List Word} {as : List α}
    (h : ∀ a ∈ as, Writable d .ordinary (f a) .ordinary) :
    Writable d .ordinary (separated .comma f as) .ordinary := by
  cases as with
  | nil => exact .nil _
  | cons a as =>
    rw [List.forall_mem_cons] at h
    exact h.1.append (.flatMap fun b hb => .punct .comma (h.2 b hb))

theorem writable_clauseWords {α : Type} {k : Keyword} {f : α → List Word} {as? : Option (List α)}
    (hk : k.isIn d) (hnative : k ≠ .native)
    (h : ∀ as ∈ as?, ∀ a ∈ as, Writable d .ordinary (f a) .ordinary) :
    Writable d .ordinary (clauseWords k f as?) .ordinary := by
  cases as? with
  | none => exact .nil _
  | some as =>
    refine .keyword hk hnative (.punct .openParen ?_)
    exact (writable_separated (h as rfl)).append (.punct .closeParen (.nil _))

theorem Lead.writable_words {m : Lead} (hm : ∀ p ∈ m.properties, p.IsWritable d) :
    Writable d .ordinary m.words .ordinary := by
  rw [words, ← List.flatMap_pure_eq_map]
  refine .append (.flatMap fun a _ => ?_) (writable_propertyWords hm)
  cases a <;> exact .keyword (by cases d <;> rfl) (by rintro ⟨⟩) (.nil _)

theorem Operation.IsLegal.writable_words {o : Operation} {name? : Option Text}
    (ho : o.IsLegal d name?) : Writable d .ordinary (o.words name?) .ordinary := by
  have hraises : Writable d .ordinary (clauseWords .raises ScopedName.words o.raises) .ordinary :=
    writable_clauseWords (by cases d <;> rfl) (by rintro ⟨⟩) fun xs hxs x hx =>
      ScopedName.writable_words ((ho.raises xs hxs).2 x hx)
  have hcontext : Writable d .ordinary (clauseWords .context (fun text => [.string text]) o.context)
      .ordinary :=
    writable_clauseWords (by cases d <;> rfl) (by rintro ⟨⟩) fun ts hts text htext =>
      .token ((ho.context ts hts).2 text htext) (by simp) (by rintro ⟨⟩) (.nil _)
  refine (Lead.writable_words (m := o.lead) ho.properties.writable).append ?_
  refine ho.returnType.writable_words.append ?_
  refine .token ho.name (by simp) (by rintro ⟨⟩) (.punct .openParen ?_)
  refine .append (writable_separated fun item hitem => ?_)
    (.punct .closeParen (hraises.append hcontext))
  rw [List.mem_append, List.mem_map, Option.mem_toList, Option.map_eq_some_iff] at hitem
  rcases hitem with ⟨p, hp, rfl⟩ | ⟨v, hv, rfl⟩
  · exact (ho.parameters p hp).writable_words
  · exact (ho.varargs v hv).writable_words

end IdlFrontend
