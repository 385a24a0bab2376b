import IdlFrontend.Grammar.Definition
import IdlFrontend.Proofs.Parser.Copies

/-!
# Productions on a text that goes on

One lemma for each production, from names up to definitions: on the longer text it does what
it does on the shorter one. None of them leaves a template bracket open, a mode behind or a
token for another, so that each lemma follows from those of its parts.

Results:

* `copies_lead`: what stands in front of a declaration, with the mode of property lists.
* `copies_definition`: definitions at every depth.
* `closes_ended`: a declaration needs the semicolon behind it.
-/

namespace IdlFrontend.Parser

variable {α : Type} {x : Text}

/-! ## Names and constant expressions -/

/-- The names behind the first one of a scoped name. -/
theorem copies_nextSegment : Copies x nextSegment nextSegment :=
  (follows_acceptPunct _).bind fun _ => follows_ite
    (fun _ => (closes_identifier _).bind fun a => copies_pure (some a)) fun _ => copies_pure none

theorem copies_scopedName : Copies x scopedName scopedName :=
  (follows_acceptPunct _).bind fun _ => (closes_identifier _).bind fun _ =>
    (copies_many copies_nextSegment).bind fun _ => copies_pure _

theorem copies_scopedNames : Copies x scopedNames scopedNames := copies_commaList copies_scopedName

theorem copies_operator? (ops : List BinaryOp) : Copies x (operator? ops) (operator? ops) := by
  refine follows_kind?.bind fun kind? => ?_
  cases ops.find? fun op => kind? == some (.punct op.punct) with
  | none => exact copies_pure none
  | some op =>
    refine copies_get fun s s' hangles _ => ?_
    rw [hangles]
    exact follows_ite (fun _ => copies_pure none) fun _ =>
      follows_take.bind_token fun _ _ _ _ => copies_pure (some op)

theorem copies_leftGrouped {operand operand' : Parser ConstExpr} (h : Copies x operand operand')
    (levels : List (List BinaryOp)) :
    Copies x (leftGrouped operand levels) (leftGrouped operand' levels) := by
  induction levels with
  | nil => exact h
  | cons ops tighter ih =>
    refine ih.bind fun first => (copies_many ?_).bind fun more => copies_pure _
    refine (copies_operator? ops).bind fun op? => ?_
    cases op? with
    | none => exact copies_pure none
    | some op => exact ih.bind fun rhs => copies_pure (some (op, rhs))

/-- String literals next to each other: the texts are the same, the lines need not be. -/
theorem follows_adjacentStrings :
    Follows x 0 (fun ts us => us.map Token.text = ts.map Token.text) (fun _ => True)
      (many nextString) (many nextString) := by
  have hitem : Follows x 0 (Option.Rel Token.Alike) (fun _ => True) nextString nextString := by
    refine (follows_isNext _).bind fun _ => follows_ite (fun _ => ?_) fun _ => ?_
    · exact follows_take.bind_of (fun _ _ h _ => keeps_pure (.some h)) fun _ _ =>
        fades_pure True.intro
    · exact follows_pure .none True.intro
  have hcons {more more' : Parser (List Token)}
      (hmore : Follows x 0 (fun ts us => us.map Token.text = ts.map Token.text) (fun _ => True)
      more more') (t : Token) (line : UInt64) :
      Follows x 0 (fun ts us => us.map Token.text = ts.map Token.text) (fun _ => True)
        (more >>= fun ts => pure (t :: ts)) (more' >>= fun ts => pure ({ t with line } :: ts)) :=
    hmore.bind_of (fun _ _ h _ => keeps_pure (congrArg (t.text :: ·) h)) fun _ _ =>
      fades_pure True.intro
  refine follows_recurse (fun more more' hmore _ => ?_) ()
  refine hitem.bind_of (fun t? u? h => ?_) fun t? _ => ?_
  · cases h with
    | none => exact fun _ => keeps_pure rfl
    | @some t u h =>
      obtain ⟨line, rfl⟩ := h
      exact (hcons (hmore ()) t line).keeps
  · cases t? with
    | none => exact fades_pure True.intro
    | some t => exact (hcons (hmore ()) t t.line).fades

/-- The literal that adjacent strings make depends on their texts only. -/
theorem copies_strings : Copies x strings strings := by
  have hfold (more : List Token) (e : ConstExpr) :
      more.foldl (fun lhs t => .concat lhs (.literal (.string (quotedBody t.text)))) e =
        (more.map Token.text).foldl (fun lhs cs => .concat lhs (.literal (.string (quotedBody cs))))
          e := by
    rw [List.foldl_map]
  refine (follows_expect _ _).bind_token fun kind text line line' => ?_
  refine follows_adjacentStrings.bind_of (fun ts us h n => keeps_pure ?_) fun _ _ =>
    fades_pure True.intro
  show List.foldl _ _ ts = List.foldl _ _ us
  rw [hfold, hfold, h]

theorem copies_primary {expr expr' : Parser ConstExpr} (h : Copies x expr expr') :
    Copies x (primary expr) (primary expr') := by
  refine follows_peek.bind_token fun kind text line line' => ?_
  dsimp only
  split
  · exact copies_scopedName.bind fun _ => copies_pure _
  · exact copies_scopedName.bind fun _ => copies_pure _
  · refine follows_take.bind_token fun _ _ _ _ => h.shielded.bind fun _ => ?_
    exact (closes_expectPunct _ _).bind fun _ => copies_pure _
  · exact copies_strings
  · have hliteral : literal? ⟨kind, text, line'⟩ = literal? ⟨kind, text, line⟩ := rfl
    rw [hliteral]
    cases literal? ⟨kind, text, line⟩ with
    | none => exact follows_of_fails (fails_unexpected _)
    | some literal => exact follows_take.bind_token fun _ _ _ _ => copies_pure _

theorem copies_unary {expr expr' : Parser ConstExpr} (h : Copies x expr expr') :
    Copies x (unary expr) (unary expr') := by
  refine follows_kind?.bind fun kind? => ?_
  cases kind?.bind unaryOp? with
  | none => exact copies_primary h
  | some op =>
    exact follows_take.bind_token fun _ _ _ _ => (copies_primary h).bind fun _ => copies_pure _

theorem copies_constExpr : Copies x constExpr constExpr :=
  follows_recurse (fun _ _ hexpr _ => copies_leftGrouped (copies_unary (hexpr ())) _) ()

/-! ## Properties and modifiers -/

theorem copies_propertyValue? : Copies x propertyValue? propertyValue? := by
  refine (follows_isNext _).bind fun _ => follows_ite (fun _ => ?_) fun _ => ?_
  · exact follows_take.bind_token fun _ _ _ _ => copies_pure _
  refine (follows_acceptPunct _).bind fun _ => follows_ite (fun _ => ?_) fun _ => copies_pure _
  refine follows_take.bind_token fun kind text line line' => follows_ite (fun _ => ?_) fun _ => ?_
  · refine (follows_isNext _).bind fun _ => follows_ite (fun _ => ?_) fun _ => copies_pure _
    exact follows_take.bind_token fun _ _ _ _ => copies_pure _
  · have hliteral : literal? ⟨kind, text, line'⟩ = literal? ⟨kind, text, line⟩ := rfl
    rw [hliteral]
    cases literal? ⟨kind, text, line⟩ with
    | some literal => exact copies_pure _
    | none => exact follows_of_fails (fails_fail _).bind

theorem copies_propertiesAfter (before : List Property) :
    Copies x (propertiesAfter before) (propertiesAfter before) := by
  refine follows_recurse (fun more more' hmore before => ?_) before
  refine (follows_acceptPunct _).bind fun _ => follows_ite (fun _ => copies_pure _) fun _ => ?_
  refine (closes_identifier _).bind fun key => copies_propertyValue?.bind fun value => ?_
  refine follows_unless fun _ => (follows_acceptPunct _).bind fun _ =>
    follows_ite (fun _ => ?_) fun _ => ?_
  · exact hmore _
  · exact (closes_expectPunct _ _).bind fun _ => copies_pure _

/-- The parser enters the mode of property lists, in both texts from the ordinary mode. -/
theorem copies_openBracket {place : String} {p q : Parser α} (h : Copies x p q) :
    Copies x
      (do expectPunct .openBracket place
          modify fun s => { s with lexer := s.lexer.push .properties }
          p)
      (do expectPunct .openBracket place
          modify fun s => { s with lexer := s.lexer.push .properties }
          q) where
  keeps n s s' a t hs hrun := by
    rw [run_bind] at hrun ⊢
    rcases hbracket : run (expectPunct .openBracket place) s with ⟨e | u, s₁⟩
    · rw [hbracket] at hrun
      cases hrun
    rw [hbracket] at hrun
    obtain ⟨b, s₂, hpeek, hb, rfl⟩ := exists_of_run_expectPunct hbracket
    rcases keeps_peek? n s s' _ _ hs hpeek with ⟨b?, s₂', hpeek', hrel, hs₂⟩ | ⟨-, hnative⟩
    · cases hrel with
      | @some _ b' halike =>
        obtain ⟨line, rfl⟩ := halike
        have hahead : s₂.ahead = some b := by
          have := ahead_of_peek? (s := s) (t := some b) (by rw [hpeek])
          rwa [hpeek] at this
        have hmode := hs₂.bracket b hahead hb
        have hbelow := hs₂.lexer.lawful.below_eq_nil hmode
        rw [run_expectPunct_of_peek? hpeek' hb]
        refine h.keeps n { afterTake b s₂ with lexer := s₂.lexer.push .properties }
          { afterTake { b with line } s₂' with lexer := s₂'.lexer.push .properties } a t ?_ hrun
        refine ⟨⟨⟨hs₂.lexer.dialect, rfl, ?_, hs₂.lexer.modulePrefix⟩, hs₂.lexer.rest,
          hs₂.lexer.atLineStart, .inr ⟨rfl, ?_⟩, hs₂.lexer.onNewLine, hs₂.lexer.uncommented⟩, .none,
          hs₂.openAngles, hs₂.openAngles', nofun⟩
        · exact congrArg₂ List.cons hs₂.lexer.mode hs₂.lexer.below
        · exact congrArg₂ List.cons hmode hbelow
    · rw [hnative b rfl] at hb
      cases hb
  fades s a t hs hrun := by
    rw [run_bind] at hrun
    rcases hbracket : run (expectPunct .openBracket place) s with ⟨e | u, s₁⟩
    · rw [hbracket] at hrun
      cases hrun
    · exact ((closes_expectPunct _ _).fades s u s₁ hs hbracket).2.elim

theorem copies_propertyList (before : List Property) :
    Copies x (propertyList before) (propertyList before) :=
  copies_openBracket (copies_propertiesAfter before)

theorem copies_lead : Copies x lead lead := by
  refine follows_recurse (fun more more' hmore (l : Lead) => ?_) {}
  refine (follows_isNext _).bind fun _ => follows_ite (fun _ => ?_) fun _ => ?_
  · exact (copies_propertyList l.properties).bind fun _ => hmore _
  refine follows_kind?.bind fun kind? => ?_
  cases kind?.bind modifier? with
  | none => exact copies_pure l
  | some m => exact follows_unless fun _ => follows_take.bind_token fun _ _ _ _ => hmore _

/-! ## Declarators -/

theorem copies_dimensions : Copies x dimensions dimensions := by
  refine copies_many ((follows_acceptPunct _).bind fun _ => follows_ite (fun _ => ?_) fun _ =>
    copies_pure _)
  refine (follows_acceptPunct _).bind fun _ => follows_ite (fun _ => copies_pure _) fun _ => ?_
  exact copies_constExpr.bind fun _ => (closes_expectPunct _ _).bind fun _ => copies_pure _

theorem copies_declarator : Copies x declarator declarator :=
  (closes_identifier _).bind fun _ => copies_dimensions.bind fun _ => copies_pure _

theorem copies_declarators : Copies x declarators declarators := copies_commaList copies_declarator

/-! ## Simple types -/

theorem copies_longType : Copies x longType longType :=
  (follows_acceptKeyword _).bind fun _ => follows_ite (fun _ => copies_pure _) fun _ =>
    (follows_acceptKeyword _).bind fun _ => follows_ite (fun _ => copies_pure _) fun _ =>
      copies_pure _

theorem copies_unsignedType : Copies x unsignedType unsignedType := by
  refine (follows_acceptKeyword _).bind fun _ => follows_ite (fun _ => copies_pure _) fun _ => ?_
  refine (follows_acceptKeyword _).bind fun _ => follows_ite (fun _ => ?_) fun _ => ?_
  · exact (follows_acceptKeyword _).bind fun _ => follows_ite (fun _ => copies_pure _) fun _ =>
      copies_pure _
  · exact follows_of_fails (fails_unexpected _)

theorem copies_sequenceType {simple simple' : Parser TypeSpec} (h : Copies x simple simple') :
    Copies x (sequenceType simple) (sequenceType simple') := by
  refine (closes_expectPunct _ _).bind fun _ => copies_enterAngle ?_
  refine h.bind fun element => (follows_acceptPunct _).bind fun _ => ?_
  refine follows_ite_bind (fun _ => copies_constExpr.map) (fun _ => copies_pure none)
    fun bound => ?_
  exact (follows_closeAngle _).bind_closed fun _ => copies_pure _

theorem copies_stringType (wide : Bool) : Copies x (stringType wide) (stringType wide) := by
  refine (follows_acceptPunct _).bind fun _ => follows_ite (fun _ => ?_) fun _ => copies_pure _
  refine copies_enterAngle (copies_constExpr.bind fun _ => ?_)
  exact (follows_closeAngle _).bind_closed fun _ => copies_pure _

theorem copies_fixedType : Copies x fixedType fixedType := by
  refine (closes_expectPunct _ _).bind fun _ => copies_enterAngle ?_
  refine copies_constExpr.bind fun _ => (closes_expectPunct _ _).bind fun _ => ?_
  refine (follows_expect _ _).bind_token fun _ _ _ _ => ?_
  exact (follows_closeAngle _).bind_closed fun _ => copies_pure _

theorem copies_simpleType : Copies x simpleType simpleType := by
  refine follows_recurse (fun simple simple' hsimple _ => ?_) ()
  refine follows_peek.bind_token fun kind text line line' => ?_
  dsimp only
  split
  · exact copies_scopedName.bind fun _ => copies_pure _
  · exact copies_scopedName.bind fun _ => copies_pure _
  · exact follows_take.bind_token fun _ _ _ _ => copies_longType.bind fun _ => copies_pure _
  · exact follows_take.bind_token fun _ _ _ _ => copies_unsignedType.bind fun _ => copies_pure _
  · exact follows_take.bind_token fun _ _ _ _ => copies_sequenceType (hsimple ())
  · exact follows_take.bind_token fun _ _ _ _ => copies_stringType false
  · exact follows_take.bind_token fun _ _ _ _ => copies_stringType true
  · exact follows_take.bind_token fun _ _ _ _ => copies_fixedType
  · cases basicType? kind with
    | none => exact follows_of_fails (fails_unexpected _)
    | some type => exact follows_take.bind_token fun _ _ _ _ => copies_pure _

/-! ## Constructed types -/

theorem copies_enumType (properties : List Property) :
    Copies x (enumType properties) (enumType properties) := by
  refine (closes_expectKeyword _ _).bind fun _ => copies_identifier?.bind fun _ => ?_
  refine (closes_expectPunct _ _).bind fun _ => (closes_identifier _).bind fun _ => ?_
  refine (copies_commaMore (closes_identifier _).copies).bind fun _ => ?_
  exact (closes_expectPunct _ _).bind fun _ => copies_pure _

theorem copies_fieldOf (type : TypeSpec) (properties : List Property) :
    Copies x (fieldOf type properties) (fieldOf type properties) :=
  copies_declarators.bind fun _ => (closes_expectPunct _ _).bind fun _ => copies_pure _

section Types

variable {type type' : Parser TypeSpec} (htype : Copies x type type')

include htype

theorem copies_fields : Copies x (fields type) (fields type') :=
  copies_manyUntil _ <| copies_lead.bind fun l => htype.bind fun _ => copies_fieldOf _ l.properties

theorem copies_structType (properties : List Property) :
    Copies x (structType type properties) (structType type' properties) := by
  refine (closes_expectKeyword _ _).bind fun _ => copies_identifier?.bind fun _ => ?_
  exact (closes_expectPunct _ _).bind fun _ => (copies_fields htype).bind fun _ => copies_pure _

omit htype in
theorem copies_selector : Copies x selector selector := by
  refine (follows_isNext _).bind fun _ => follows_ite (fun _ => ?_) fun _ => ?_
  · exact (copies_enumType []).bind fun _ => copies_pure _
  · exact copies_simpleType.bind fun type => follows_ite (fun _ => copies_pure type) fun _ =>
      follows_of_fails (fails_fail _)

omit htype in
theorem copies_caseLabels : Copies x caseLabels caseLabels := by
  refine (copies_many ?_).bind fun labels => follows_ite
    (fun _ => follows_of_fails (fails_unexpected _))
    fun _ => copies_pure labels
  refine (follows_acceptKeyword _).bind fun _ => follows_ite (fun _ => ?_) fun _ => ?_
  · exact copies_constExpr.bind fun _ => (closes_expectPunct _ _).bind fun _ => copies_pure _
  · refine (follows_acceptKeyword _).bind fun _ => follows_ite (fun _ => ?_) fun _ =>
      copies_pure none
    exact (closes_expectPunct _ _).bind fun _ => copies_pure _

theorem copies_unionCase : Copies x (unionCase type) (unionCase type') :=
  copies_caseLabels.bind fun _ => htype.bind fun _ => copies_declarator.bind fun _ =>
    (closes_expectPunct _ _).bind fun _ => copies_pure _

theorem copies_unionType (properties : List Property) :
    Copies x (unionType type properties) (unionType type' properties) := by
  refine (closes_expectKeyword _ _).bind fun _ => copies_identifier?.bind fun _ => ?_
  refine (closes_expectKeyword _ _).bind fun _ => (closes_expectPunct _ _).bind fun _ => ?_
  refine copies_selector.bind fun _ => (closes_expectPunct _ _).bind fun _ => ?_
  refine (closes_expectPunct _ _).bind fun _ => (copies_unionCase htype).bind fun _ => ?_
  exact (copies_manyUntil _ (copies_unionCase htype)).bind fun _ => copies_pure _

theorem copies_constructed? (properties : List Property) :
    Copies x (constructed? type properties) (constructed? type' properties) := by
  refine follows_kind?.bind fun kind? => ?_
  split
  · exact (copies_structType htype properties).bind fun _ => copies_pure _
  · exact (copies_unionType htype properties).bind fun _ => copies_pure _
  · exact (copies_enumType properties).bind fun _ => copies_pure _
  · exact copies_pure none

end Types

theorem copies_typeSpec : Copies x typeSpec typeSpec := by
  refine follows_recurse (fun type type' htype _ => ?_) ()
  refine (copies_constructed? (htype ()) []).bind fun r? => ?_
  split
  · exact copies_pure _
  · exact copies_simpleType

/-! ## Attributes and operations -/

theorem copies_checkUsable (type : TypeSpec) : Copies x (checkUsable type) (checkUsable type) := by
  cases type with
  | sequence => exact follows_of_fails (fails_fail _)
  | basic | named | fixedPoint | string | struct | union | enum => exact copies_pure ()

theorem copies_usableType : Copies x usableType usableType := by
  refine follows_kind?.bind fun kind? => ?_
  split
  · exact follows_of_fails (fails_unexpected _)
  · exact follows_of_fails (fails_unexpected _)
  · exact follows_of_fails (fails_unexpected _)
  · exact copies_simpleType.bind fun type => (copies_checkUsable type).bind fun _ =>
      copies_pure type

theorem copies_raisesList : Copies x raisesList raisesList :=
  (closes_expectPunct _ _).bind fun _ => copies_scopedNames.bind fun names =>
    (closes_expectPunct _ _).bind fun _ => copies_pure names

theorem copies_isWord (word : Text) : Copies x (isWord word) (isWord word) := by
  refine follows_peek?.bind_of (fun t? u? h n => keeps_pure ?_) fun _ _ => fades_pure True.intro
  cases h with
  | none => rfl
  | some h =>
    obtain ⟨line, rfl⟩ := h
    rfl

theorem copies_attributeName : Copies x attributeName attributeName := by
  refine (closes_identifier _).bind fun name => ?_
  refine follows_recurse (fun more more' hmore (a : AttributeName) => ?_) ⟨name, [], []⟩
  refine (copies_isWord _).bind fun getter => (copies_isWord _).bind fun setter => ?_
  refine follows_ite (fun _ => ?_) fun _ => copies_pure a
  refine follows_take.bind_token fun _ _ _ _ => (closes_expectKeyword _ _).bind fun _ => ?_
  exact copies_raisesList.bind fun names => follows_ite (fun _ => hmore _) fun _ => hmore _

theorem copies_attributes (l : Lead) : Copies x (attributes l) (attributes l) := by
  refine (closes_expectKeyword _ _).bind fun _ => (follows_isPunct _).bind fun _ => ?_
  refine follows_ite_bind (fun _ => copies_propertyList _) (fun _ => copies_pure _)
    fun properties => ?_
  refine copies_usableType.bind fun type => (follows_acceptPunct _).bind fun _ => ?_
  exact (copies_commaList copies_attributeName).bind fun _ => copies_pure _

theorem copies_addDirections (before ds : List Direction) :
    Copies x (addDirections before ds) (addDirections before ds) := by
  induction ds generalizing before with
  | nil => exact copies_pure before
  | cons d ds ih => exact follows_ite (fun _ => follows_of_fails (fails_fail _)) fun _ => ih _

theorem copies_parameterLead : Copies x parameterLead parameterLead := by
  refine follows_recurse (fun more more' hmore (l : ParameterLead) => ?_) {}
  refine (follows_isNext _).bind fun _ => follows_ite (fun _ => ?_) fun _ => ?_
  · exact (copies_propertyList l.properties).bind fun _ => hmore _
  refine follows_kind?.bind fun kind? => ?_
  cases kind?.bind directions? with
  | none => exact copies_pure l
  | some ds =>
    exact (copies_addDirections _ ds).bind fun _ => follows_take.bind_token fun _ _ _ _ => hmore _

theorem copies_parameterType : Copies x parameterType parameterType :=
  (follows_acceptKeyword _).bind fun _ => follows_ite (fun _ => copies_pure _) fun _ =>
    copies_usableType.bind fun _ => (follows_acceptPunct _).bind fun _ => copies_pure _

theorem copies_typedVarargs (l : ParameterLead) (type : TypeSpec) (nullable : Bool) :
    Copies x (typedVarargs l type nullable) (typedVarargs l type nullable) := by
  unfold typedVarargs
  exact follows_unless fun _ => (closes_identifier _).bind fun _ => copies_pure _

theorem copies_namedParameter (l : ParameterLead) (type : TypeSpec) (nullable : Bool) :
    Copies x (namedParameter l type nullable) (namedParameter l type nullable) := by
  refine (closes_identifier _).bind fun name => (follows_acceptPunct _).bind fun _ => ?_
  refine follows_ite_bind (fun _ => copies_constExpr.map) (fun _ => copies_pure none)
    fun value? => ?_
  refine copies_get fun s s' _ hdialect => ?_
  rw [hdialect]
  exact follows_unless fun _ => follows_unless fun _ => copies_pure _

theorem copies_acceptVarargs : Copies x acceptVarargs acceptVarargs :=
  (follows_acceptPunct _).bind fun _ => follows_ite (fun _ => copies_pure true) fun _ =>
    (follows_acceptKeyword _).copies

theorem copies_parametersAfter (before : List Parameter) :
    Copies x (parametersAfter before) (parametersAfter before) := by
  refine follows_recurse (fun more more' hmore before => ?_) before
  refine copies_acceptVarargs.bind fun _ => follows_ite (fun _ => ?_) fun _ => ?_
  · exact (closes_expectPunct _ _).bind fun _ => copies_pure _
  refine copies_parameterLead.bind fun l => copies_parameterType.bind fun r => ?_
  refine (follows_acceptPunct _).bind fun _ => follows_ite (fun _ => ?_) fun _ => ?_
  · refine (copies_typedVarargs l r.1 r.2).bind fun varargs => follows_unless fun _ => ?_
    exact (closes_expectPunct _ _).bind fun _ => copies_pure _
  · refine (copies_namedParameter l r.1 r.2).bind fun p => ?_
    refine (follows_acceptPunct _).bind fun _ => follows_ite (fun _ => hmore _) fun _ => ?_
    exact (closes_expectPunct _ _).bind fun _ => copies_pure _

theorem copies_parameters : Copies x parameters parameters :=
  (closes_expectPunct _ _).bind fun _ => (follows_acceptPunct _).bind fun _ =>
    follows_ite (fun _ => copies_pure _) fun _ => copies_parametersAfter []

theorem copies_contextItem : Copies x contextItem contextItem := by
  refine (follows_expect _ _).bind_token fun kind text line line' => ?_
  refine follows_adjacentStrings.bind_of (fun ts us h n => keeps_pure ?_) fun _ _ =>
    fades_pure True.intro
  have htexts (vs : List Token) : vs.map (fun t => quotedBody t.text) =
      (vs.map Token.text).map quotedBody := by
    rw [List.map_map]
    rfl
  rw [List.map_cons, List.map_cons, htexts, htexts, h]

theorem copies_contextList : Copies x contextList contextList :=
  (closes_expectPunct _ _).bind fun _ => (copies_commaList copies_contextItem).bind fun items =>
    (closes_expectPunct _ _).bind fun _ => copies_pure items

theorem copies_operationOf (l : Lead) (returnType : TypeSpec) (name : Text) :
    Copies x (operationOf l returnType name) (operationOf l returnType name) := by
  refine copies_parameters.bind fun r => (follows_acceptKeyword _).bind fun _ => ?_
  refine follows_ite_bind (fun _ => copies_raisesList.map) (fun _ => copies_pure none)
    fun raises => ?_
  refine (follows_acceptKeyword _).bind fun _ => ?_
  exact follows_ite_bind (fun _ => copies_contextList.map) (fun _ => copies_pure none)
    fun context => copies_pure _

theorem copies_operation (l : Lead) : Copies x (operation l) (operation l) := by
  refine (follows_acceptKeyword _).bind fun _ => ?_
  exact follows_ite_bind (fun _ => copies_pure _) (fun _ => copies_usableType) fun type =>
    (closes_identifier _).bind fun name => copies_operationOf l type name

/-! ## Declarations -/

theorem copies_typeDef (l : Lead) : Copies x (typeDef l) (typeDef l) :=
  (closes_expectKeyword _ _).bind fun _ => copies_typeSpec.bind fun _ =>
    copies_declarators.bind fun _ => copies_pure _

theorem copies_native (l : Lead) : Copies x (native l) (native l) := by
  refine (closes_expectKeyword _ _).bind fun _ => (closes_identifier _).bind fun _ => ?_
  refine (follows_acceptPunct _).bind fun _ => follows_ite (fun _ => ?_) fun _ => copies_pure _
  exact (follows_expect _ _).bind_token fun _ _ _ _ => (closes_expectPunct _ _).bind fun _ =>
    copies_pure _

theorem copies_exceptionType (l : Lead) : Copies x (exceptionType l) (exceptionType l) :=
  (closes_expectKeyword _ _).bind fun _ => (closes_identifier _).bind fun _ =>
    (closes_expectPunct _ _).bind fun _ => (copies_fields copies_typeSpec).bind fun _ =>
      copies_pure _

theorem copies_constantType : Copies x constantType constantType := by
  refine (follows_acceptKeyword _).bind fun _ => follows_ite (fun _ => ?_) fun _ => ?_
  · exact (follows_isPunct _).bind fun _ => follows_unless fun _ => copies_pure _
  · exact copies_simpleType.bind fun type => follows_ite (fun _ => copies_pure type) fun _ =>
      follows_of_fails (fails_fail _)

theorem copies_constant (l : Lead) : Copies x (constant l) (constant l) :=
  (closes_expectKeyword _ _).bind fun _ => copies_constantType.bind fun _ =>
    (closes_identifier _).bind fun _ => (closes_expectPunct _ _).bind fun _ =>
      copies_constExpr.bind fun _ => copies_pure _

/-! ## Value types -/

theorem copies_valueTypeOf {member member' : Parser (Option Definition)}
    (h : Copies x member member') (l : Lead) :
    Copies x (valueTypeOf member l) (valueTypeOf member' l) := by
  refine (closes_expectKeyword _ _).bind fun _ => copies_identifier?.bind fun name => ?_
  have hrest (base : Option TypeSpec) : Copies x
      (do if ← acceptPunct .openBrace then
            let members ← manyUntil .closeBrace member
            return (⟨name, l.properties, base, some (members.filterMap id)⟩ : ValueType)
          else return ⟨name, l.properties, base, none⟩)
      (do if ← acceptPunct .openBrace then
            let members ← manyUntil .closeBrace member'
            return ⟨name, l.properties, base, some (members.filterMap id)⟩
          else return ⟨name, l.properties, base, none⟩) :=
    (follows_acceptPunct _).bind fun _ => follows_ite
      (fun _ => (copies_manyUntil _ h).bind fun _ => copies_pure _) fun _ => copies_pure _
  refine (follows_acceptPunct _).bind fun _ => follows_kind?.bind fun _ => ?_
  refine follows_ite (fun _ => copies_typeSpec.map.bind hrest) fun _ => ?_
  exact follows_ite_bind (fun _ => copies_typeSpec.map) (fun _ => copies_pure none) hrest

theorem copies_declaration? {valueType valueType' : Lead → Parser ValueType} (l : Lead)
    (h : Copies x (valueType l) (valueType' l)) :
    Copies x (declaration? valueType l) (declaration? valueType' l) := by
  refine follows_kind?.bind fun kind? => ?_
  split
  · exact (copies_typeDef l).bind fun _ => copies_pure _
  · exact (copies_native l).bind fun _ => copies_pure _
  · exact h.bind fun _ => copies_pure _
  · exact (copies_exceptionType l).bind fun _ => copies_pure _
  · exact (copies_constant l).bind fun _ => copies_pure _
  · exact copies_pure none

theorem copies_declarationOrType? {valueType valueType' : Lead → Parser ValueType} (l : Lead)
    (h : Copies x (valueType l) (valueType' l)) :
    Copies x (declarationOrType? valueType l) (declarationOrType? valueType' l) := by
  refine (copies_constructed? copies_typeSpec l.properties).bind fun r? => ?_
  split
  · exact copies_pure _
  · exact copies_declaration? l h

/-- At the end of the text there is no lone semicolon and no code fragment. -/
theorem follows_bare? (l : Lead) : Follows x 0 Eq (fun d?? => d?? = none) (bare? l) (bare? l) := by
  refine follows_ite (fun _ => follows_pure rfl rfl) fun _ => ?_
  refine (follows_acceptPunct _).bind_or (fun b hb => ?_) fun b hb _ => ?_
  · subst hb
    exact follows_isNext_take (fun _ _ _ _ => keeps_pure rfl) (fun h => by cases h)
      (follows_pure rfl rfl)
  · obtain rfl : b = true := Bool.not_eq_false b ▸ hb
    exact keeps_pure rfl

theorem closes_ended (d : Definition) : Closes x (ended d) (ended d) :=
  (closes_expectPunct _ _).close

theorem copies_typedMember (l : Lead) : Copies x (typedMember l) (typedMember l) := by
  refine (follows_isKeyword _).bind fun _ => follows_ite (fun _ => ?_) fun _ => ?_
  · exact (copies_operation l).bind fun _ => (closes_expectPunct _ _).bind fun _ => copies_pure _
  refine copies_typeSpec.bind fun type => (closes_identifier _).bind fun name => ?_
  refine (follows_isPunct _).bind fun _ => follows_ite (fun _ => ?_) fun _ => ?_
  · refine (copies_checkUsable type).bind fun _ => (copies_operationOf l type name).bind fun _ => ?_
    exact (closes_expectPunct _ _).bind fun _ => copies_pure _
  · refine copies_dimensions.bind fun _ => (copies_commaMore copies_declarator).bind fun _ => ?_
    exact (closes_expectPunct _ _).bind fun _ => copies_pure _

theorem copies_valueMember : Copies x valueMember valueMember := by
  refine follows_recurse (fun member member' hmember _ => ?_) ()
  refine copies_lead.bind fun l => follows_peek.bind_token fun _ _ _ _ => ?_
  refine (follows_bare? l).bind fun d?? => ?_
  split
  · exact copies_pure _
  refine (copies_constructed? copies_typeSpec l.properties).bind fun r? => ?_
  split
  · refine (follows_isPunct _).bind fun _ => follows_ite (fun _ => ?_) fun _ => ?_
    · exact (closes_ended _).copies
    · exact (copies_fieldOf _ []).bind fun _ => copies_pure _
  refine (copies_declaration? l (copies_valueTypeOf (hmember ()) l)).bind fun d? => ?_
  split
  · exact (closes_ended _).copies
  refine (follows_isKeyword _).bind fun _ => follows_ite (fun _ => ?_) fun _ => ?_
  · exact (copies_attributes l).bind fun _ => (closes_ended _).copies
  · exact (copies_typedMember l).bind fun _ => copies_pure _

theorem copies_valueType (l : Lead) : Copies x (valueType l) (valueType l) :=
  copies_valueTypeOf copies_valueMember l

/-! ## Interfaces -/

theorem copies_interfaceMember : Copies x interfaceMember interfaceMember := by
  refine copies_lead.bind fun l => follows_peek.bind_token fun _ _ _ _ => ?_
  refine (follows_bare? l).bind fun d?? => ?_
  split
  · exact copies_pure _
  refine (copies_declarationOrType? l (copies_valueType l)).bind fun d? => ?_
  split
  · exact (closes_ended _).copies
  refine (follows_isKeyword _).bind fun _ => follows_ite (fun _ => ?_) fun _ => ?_
  · exact (copies_attributes l).bind fun _ => (closes_ended _).copies
  · exact (copies_operation l).bind fun _ => (closes_ended _).copies

theorem copies_unlessBuiltin (name : Text) : Copies x
    (do let _ ← take
        match builtinInterface? name with
        | some builtin => fail (.builtinInterfaceName builtin)
        | none => return name)
    (do let _ ← take
        match builtinInterface? name with
        | some builtin => fail (.builtinInterfaceName builtin)
        | none => return name) := by
  refine follows_take.bind_token fun _ _ _ _ => ?_
  split
  · exact follows_of_fails (fails_fail _)
  · exact copies_pure name

theorem copies_interfaceName : Copies x interfaceName interfaceName := by
  refine follows_peek.bind_token fun kind text line line' => ?_
  dsimp only
  split
  · exact copies_unlessBuiltin text
  · exact copies_unlessBuiltin text
  · exact copies_unlessBuiltin text
  · exact follows_of_fails (fails_unexpected _)

theorem copies_interface (l : Lead) : Copies x (interface l) (interface l) := by
  unfold interface
  refine follows_unless fun _ => (closes_expectKeyword _ _).bind fun _ => ?_
  refine copies_interfaceName.bind fun name => ?_
  refine (follows_isPunct _).bind fun _ => (follows_isPunct _).bind fun _ => ?_
  refine follows_ite (fun _ => copies_pure _) fun _ => (follows_acceptPunct _).bind fun _ => ?_
  refine follows_ite_bind (fun _ => copies_scopedNames) (fun _ => copies_pure []) fun supers => ?_
  refine (closes_expectPunct _ _).bind fun _ => ?_
  exact (copies_manyUntil _ copies_interfaceMember).bind fun _ => copies_pure _

/-! ## Modules -/

/-- What is done with the prefix of the next module. Both texts have the same one. -/
theorem copies_takePragma {f g : Option Pragma → Parser α}
    (h : ∀ pragma, Copies x (f pragma) (g pragma)) :
    Copies x
      (do let s ← get
          set { s with lexer := (s.lexer.takePragma "prefix".toList).2 }
          f (s.lexer.takePragma "prefix".toList).1)
      (do let s ← get
          set { s with lexer := (s.lexer.takePragma "prefix".toList).2 }
          g (s.lexer.takePragma "prefix".toList).1) where
  keeps n s s' a t hs hrun := by
    obtain ⟨htaken, hextends⟩ := hs.lexer.takePragma
    rw [run_bind, run_get] at hrun ⊢
    dsimp only
    rw [htaken]
    refine (h (s.lexer.takePragma "prefix".toList).1).keeps n
      { s with lexer := (s.lexer.takePragma "prefix".toList).2 } _ a t ?_ hrun
    exact ⟨hextends, hs.ahead, hs.openAngles, hs.openAngles', fun u hu hkind =>
      (Lexer.mode_takePragma _ _).trans (hs.bracket u hu hkind)⟩
  fades s a t hs hrun :=
    (h (s.lexer.takePragma "prefix".toList).1).fades
      { s with lexer := (s.lexer.takePragma "prefix".toList).2 } a t
      ⟨hs.ne_nil, (Lexer.rest_takePragma _ _).trans hs.rest, hs.ahead⟩ hrun

theorem copies_pragmaBody (pragma : Option Pragma) : Copies x
    (match pragma.bind Pragma.value with
      | none => return []
      | some value =>
        match pragmaBody? value with
        | none => fail (.invalidModulePrefix value)
        | some [] => return []
        | some body => return body ++ ['.'])
    (match pragma.bind Pragma.value with
      | none => return []
      | some value =>
        match pragmaBody? value with
        | none => fail (.invalidModulePrefix value)
        | some [] => return []
        | some body => return body ++ ['.']) := by
  split
  · exact copies_pure []
  · split
    · exact follows_of_fails (fails_fail _)
    · exact copies_pure []
    · exact copies_pure _

theorem copies_modulePrefix : Copies x modulePrefix modulePrefix :=
  copies_takePragma copies_pragmaBody

theorem copies_moduleOf {definition definition' : Parser (Option Definition)}
    (h : Copies x definition definition') : Copies x (moduleOf definition) (moduleOf definition') :=
  (closes_expectKeyword _ _).bind fun _ => (closes_identifier _).bind fun _ =>
    copies_modulePrefix.bind fun _ => (closes_expectPunct _ _).bind fun _ =>
      (copies_manyUntil _ h).bind fun _ => copies_pure _

/-! ## Definitions -/

/-- Whether a scoped name can begin with a token of the kind. -/
def opensName (kind : TokenKind) : Bool := kind == .identifier || kind == .punct .scope

theorem closes_interfaceOrDeclaration (l : Lead) :
    Closes x (interfaceOrDeclaration l) (interfaceOrDeclaration l) := by
  refine (follows_isKeyword _).bind fun _ => follows_ite (fun _ => ?_) fun _ => ?_
  · exact (copies_interface l).bind fun _ => closes_ended _
  refine (copies_declarationOrType? l (copies_valueType l)).bind fun d? => ?_
  split
  · exact closes_ended _
  · exact follows_of_fails (fails_unexpected _)

/-- A definition is closed by a semicolon or is a code fragment, unless it is a bare name. -/
theorem closes_afterLead {definition definition' : Parser (Option Definition)}
    (h : Copies x definition definition') {l : Lead} {kind : TokenKind}
    (hname : ¬(l.isEmpty ∧ opensName kind)) (text : Text) (line line' : UInt64) :
    Closes x (afterLead definition l ⟨kind, text, line⟩) (afterLead definition' l ⟨kind, text,
      line'⟩) := by
  refine (follows_bare? l).bind_or (fun d?? hd => ?_) fun d?? hd _ => ?_
  · subst hd
    refine follows_ite (fun hempty => ?_) fun _ => closes_interfaceOrDeclaration l
    dsimp only
    split
    · exact (copies_moduleOf h).bind fun _ => (closes_expectPunct _ _).close
    · exact absurd ⟨hempty, rfl⟩ hname
    · exact absurd ⟨hempty, rfl⟩ hname
    · exact closes_interfaceOrDeclaration l
  · obtain ⟨d, rfl⟩ := Option.ne_none_iff_exists'.1 hd
    exact keeps_pure rfl

/-- A bare name defines nothing. -/
theorem afterLead_of_opensName (definition : Parser (Option Definition)) {l : Lead} {t : Token}
    (hempty : l.isEmpty) (hname : opensName t.kind) :
    afterLead definition l t = (do
      if let some d ← bare? l then return d
      let _ ← scopedName
      return none) := by
  unfold afterLead
  rw [if_pos hempty]
  unfold opensName at hname
  rw [Bool.or_eq_true, beq_iff_eq, beq_iff_eq] at hname
  rcases hname with hname | hname <;> rw [hname] <;> rfl

theorem copies_afterLead {definition definition' : Parser (Option Definition)}
    (h : Copies x definition definition') (l : Lead) (kind : TokenKind) (text : Text)
    (line line' : UInt64) :
    Copies x (afterLead definition l ⟨kind, text, line⟩) (afterLead definition' l ⟨kind, text,
      line'⟩) := by
  by_cases hname : l.isEmpty ∧ opensName kind
  · rw [afterLead_of_opensName _ hname.1 hname.2, afterLead_of_opensName _ hname.1 hname.2]
    refine (follows_bare? l).bind fun d?? => ?_
    split
    · exact copies_pure _
    · exact copies_scopedName.bind fun _ => copies_pure none
  · exact (closes_afterLead h hname text line line').copies

theorem copies_definitionRound (definition definition' : Unit → Parser (Option Definition))
    (h : ∀ j, Copies x (definition j) (definition' j)) (i : Unit) :
    Copies x (definitionRound definition i) (definitionRound definition' i) :=
  copies_lead.bind fun l => follows_peek.bind_token fun kind text line line' =>
    copies_afterLead (h ()) l kind text line line'

theorem copies_definition : Copies x definition definition :=
  follows_recurse copies_definitionRound ()

theorem fades_afterLead {definition : Parser (Option Definition)}
    (h : Copies x definition definition) (l : Lead) {t : Token} (ht : t.kind = .nativeType) :
    Fades x (fun _ => False) (afterLead definition l t) := by
  refine (closes_afterLead h (fun hname => ?_) t.text t.line t.line).fades
  have hopens := hname.2
  rw [ht] at hopens
  cases hopens

theorem fades_afterPeek {definition : Parser (Option Definition)}
    (h : Copies x definition definition) (l : Lead) :
    Fades x (fun _ => False) (peek >>= afterLead definition l) :=
  follows_peek.fades.bind fun _ => fades_afterLead h l

/-- No definition is found at the end of the text. -/
theorem fades_definition : Fades x (fun _ => False) definition := by
  intro s d t hs hrun
  rw [definition, run_recurse] at hrun
  have hnested :
      Copies x (unfold definitionRound s.unread ()) (unfold definitionRound s.unread ()) :=
    follows_unfold copies_definitionRound (Nat.le_refl _) ()
  exact (copies_lead.fades.bind fun l _ => fades_afterPeek hnested l) s d t hs hrun

end IdlFrontend.Parser
