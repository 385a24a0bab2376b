import IdlFrontend.Grammar.Type
import IdlFrontend.Proofs.Parser.Yields
import IdlFrontend.Proofs.Syntax.WellFormed
import Mathlib.Data.List.Nodup

/-!
# The types that are read

One lemma for each production from names and constant expressions up to types. Of names
and expressions nothing is claimed but that reading them keeps to the dialect.

Results:

* `yields_lead`: what stands in front of a declaration repeats nothing.
* `yields_simpleType`, `yields_typeSpec`: types.
* `yields_constructed?`: constructed types, as types and as definitions.
-/

namespace IdlFrontend

/-- The type is none of those that only some places in a grammar allow. -/
def TypeSpec.IsSimple : TypeSpec → Prop
  | .basic type => type ≠ .void
  | .struct _ | .union _ | .enum _ => False
  | _ => True

/-- Nothing in front of the declaration is there twice. -/
structure Lead.WellFormed (l : Lead) : Prop where
  modifiers : l.modifiers.Nodup
  properties : Property.Distinct l.properties

theorem Property.Distinct.nil : Property.Distinct [] := List.nodup_nil

/-- A property with a new key can be added. -/
theorem Property.Distinct.append {before : List Property} {p : Property}
    (h : Property.Distinct before) (hnew : ¬before.any (·.key == p.key)) :
    Property.Distinct (before ++ [p]) := by
  have hkey : p.key ∉ before.map Property.key := by
    intro hmem
    obtain ⟨q, hq, heq⟩ := List.mem_map.1 hmem
    exact hnew (List.any_eq_true.2 ⟨q, hq, beq_iff_eq.2 heq⟩)
  unfold Property.Distinct
  rw [List.map_append, List.map_singleton, ← List.concat_eq_append]
  exact List.Nodup.concat hkey h

namespace Parser

variable {d : Dialect}

/-! ## Names and constant expressions -/

theorem yields_scopedName : Yields d (fun _ => True) scopedName := by
  refine (yields_acceptPunct _).bind fun _ _ => (yields_identifier _).bind fun _ _ => ?_
  refine Yields.bind (yields_many (P := fun _ => True) ?_) fun _ _ => yields_pure True.intro
  refine (yields_acceptPunct _).bind fun _ _ => yields_ite (fun _ => ?_) fun _ => ?_
  · exact (yields_identifier _).bind fun _ _ => yields_pure fun _ _ => True.intro
  · exact yields_pure fun _ _ => True.intro

theorem yields_scopedNames : Yields d (fun names => names ≠ []) scopedNames :=
  (yields_commaList yields_scopedName).mono fun _ h => h.1

theorem yields_operator? (ops : List BinaryOp) : Yields d (fun _ => True) (operator? ops) := by
  refine yields_kind?.bind fun kind? _ => ?_
  cases ops.find? fun op => kind? == some (.punct op.punct) with
  | none => exact yields_pure True.intro
  | some op =>
    refine yields_get.bind fun _ _ => yields_ite (fun _ => yields_pure True.intro) fun _ => ?_
    exact yields_take.bind fun _ _ => yields_pure True.intro

theorem yields_leftGrouped {operand : Parser ConstExpr} (h : Yields d (fun _ => True) operand)
    (levels : List (List BinaryOp)) : Yields d (fun _ => True) (leftGrouped operand levels) := by
  induction levels with
  | nil => exact h
  | cons ops tighter ih =>
    refine ih.bind fun _ _ => ?_
    refine Yields.bind (yields_many (P := fun _ => True) ?_) fun _ _ => yields_pure True.intro
    refine (yields_operator? ops).bind fun op? _ => ?_
    cases op? with
    | none => exact yields_pure fun _ _ => True.intro
    | some op => exact ih.bind fun _ _ => yields_pure fun _ _ => True.intro

theorem yields_adjacentStrings :
    Yields d (fun _ => True) (many nextString) := by
  refine Yields.trivial (yields_many (P := fun _ => True) ?_)
  refine (yields_isNext _).bind fun _ _ => yields_ite (fun _ => ?_) fun _ => ?_
  · exact yields_take.bind fun _ _ => yields_pure fun _ _ => True.intro
  · exact yields_pure fun _ _ => True.intro

theorem yields_strings : Yields d (fun _ => True) strings :=
  (yields_expect _ _).bind fun _ _ => yields_adjacentStrings.bind fun _ _ => yields_pure True.intro

theorem yields_primary {expr : Parser ConstExpr} (h : Yields d (fun _ => True) expr) :
    Yields d (fun _ => True) (primary expr) := by
  refine yields_peek.bind fun t _ => ?_
  split
  · exact yields_scopedName.bind fun _ _ => yields_pure True.intro
  · exact yields_scopedName.bind fun _ _ => yields_pure True.intro
  · refine yields_take.bind fun _ _ => h.shielded.bind fun _ _ => ?_
    exact (yields_expectPunct _ _).bind fun _ _ => yields_pure True.intro
  · exact yields_strings
  · cases literal? t with
    | none => exact yields_unexpected _
    | some _ => exact yields_take.bind fun _ _ => yields_pure True.intro

theorem yields_unary {expr : Parser ConstExpr} (h : Yields d (fun _ => True) expr) :
    Yields d (fun _ => True) (unary expr) := by
  refine yields_kind?.bind fun kind? _ => ?_
  cases kind?.bind unaryOp? with
  | none => exact yields_primary h
  | some _ =>
    exact yields_take.bind fun _ _ => (yields_primary h).bind fun _ _ => yields_pure True.intro

theorem yields_constExpr : Yields d (fun _ => True) constExpr :=
  yields_recurse (J := fun _ => True)
    (fun _ hexpr _ _ => yields_leftGrouped (yields_unary (hexpr () True.intro)) _) True.intro

/-! ## Properties and modifiers -/

theorem yields_propertyValue? : Yields d (fun _ => True) propertyValue? := by
  refine (yields_isNext _).bind fun _ _ => yields_ite (fun _ => ?_) fun _ => ?_
  · exact yields_take.bind fun _ _ => yields_pure True.intro
  refine (yields_acceptPunct _).bind fun _ _ => yields_ite (fun _ => ?_) fun _ => ?_
  · refine yields_take.bind fun t _ => yields_ite (fun _ => ?_) fun _ => ?_
    · refine (yields_isNext _).bind fun _ _ => yields_ite (fun _ => ?_) fun _ => ?_
      · exact yields_take.bind fun _ _ => yields_pure True.intro
      · exact yields_pure True.intro
    · cases literal? t with
      | some _ => exact yields_pure True.intro
      | none => exact (yields_fail (P := fun _ => True) _).bind fun _ _ => yields_pure True.intro
  · exact yields_pure True.intro

theorem yields_propertiesAfter {before : List Property} (h : Property.Distinct before) :
    Yields d Property.Distinct (propertiesAfter before) := by
  refine yields_recurse (J := Property.Distinct) (fun more hmore before hbefore => ?_) h
  refine (yields_acceptPunct _).bind fun _ _ => yields_ite (fun _ => yields_pure hbefore)
    fun _ => ?_
  refine (yields_identifier _).bind fun key _ => yields_propertyValue?.bind fun value _ => ?_
  refine yields_unless fun hnew => ?_
  have hmoreProperties := hbefore.append (p := ⟨key, value⟩) hnew
  refine (yields_acceptPunct _).bind fun _ _ => yields_ite (fun _ => ?_) fun _ => ?_
  · exact hmore _ hmoreProperties
  · exact (yields_expectPunct _ _).bind fun _ _ => yields_pure hmoreProperties

theorem yields_propertyList {before : List Property} (h : Property.Distinct before) :
    Yields d Property.Distinct (propertyList before) := by
  refine (yields_expectPunct _ _).bind fun _ _ => ?_
  refine Yields.bind (yields_modify ?_) fun _ _ => yields_propertiesAfter h
  exact fun _ hs => ⟨hs.dialect_eq, hs.ahead⟩

theorem yields_lead : Yields d Lead.WellFormed lead := by
  refine yields_recurse (J := Lead.WellFormed) (fun more hmore l hl => ?_) ⟨.nil, .nil⟩
  refine (yields_isNext _).bind fun _ _ => yields_ite (fun _ => ?_) fun _ => ?_
  · exact (yields_propertyList hl.properties).bind fun _ h => hmore _ ⟨hl.modifiers, h⟩
  refine yields_kind?.bind fun kind? _ => ?_
  cases kind?.bind modifier? with
  | none => exact yields_pure hl
  | some m =>
    refine yields_unless fun hnew => yields_take.bind fun _ _ => hmore _ ⟨?_, hl.properties⟩
    rw [← List.concat_eq_append]
    exact hl.modifiers.concat (by simpa using hnew)

/-! ## Declarators -/

theorem yields_dimensions : Yields d (fun _ => True) dimensions := by
  refine Yields.trivial (yields_many (P := fun _ => True) ?_)
  refine (yields_acceptPunct _).bind fun _ _ => yields_ite (fun _ => ?_) fun _ => ?_
  · refine (yields_acceptPunct _).bind fun _ _ => yields_ite (fun _ => ?_) fun _ => ?_
    · exact yields_pure fun _ _ => True.intro
    · refine yields_constExpr.bind fun _ _ => (yields_expectPunct _ _).bind fun _ _ => ?_
      exact yields_pure fun _ _ => True.intro
  · exact yields_pure fun _ _ => True.intro

/-- An array is declared only if a dimension has been read. -/
theorem wellFormed_ofDimensions (name : Text) (dimensions : List (Option ConstExpr)) :
    (Declarator.ofDimensions name dimensions).WellFormed := by
  cases dimensions with
  | nil => exact True.intro
  | cons dimension dimensions => exact List.cons_ne_nil dimension dimensions

theorem yields_declarator : Yields d Declarator.WellFormed declarator :=
  (yields_identifier _).bind fun name _ => yields_dimensions.bind fun dimensions _ =>
    yields_pure (wellFormed_ofDimensions name dimensions)

theorem yields_declarators :
    Yields d (fun ds => ds ≠ [] ∧ ∀ declarator ∈ ds, declarator.WellFormed) declarators :=
  yields_commaList yields_declarator

/-! ## Simple types -/

theorem basicType?_ne_void {kind : TokenKind} {type : BasicType}
    (h : basicType? kind = some type) : type ≠ .void := by
  unfold basicType? at h
  split at h <;> cases h <;> decide

theorem yields_longType : Yields d (fun type => type ≠ .void) longType := by
  refine (yields_acceptKeyword _).bind fun _ _ => yields_ite (fun _ => ?_) fun _ => ?_
  · exact yields_pure (by decide)
  refine (yields_acceptKeyword _).bind fun _ _ => yields_ite (fun _ => ?_) fun _ => ?_
  · exact yields_pure (by decide)
  · exact yields_pure (by decide)

theorem yields_unsignedType : Yields d (fun type => type ≠ .void) unsignedType := by
  refine (yields_acceptKeyword _).bind fun _ _ => yields_ite (fun _ => ?_) fun _ => ?_
  · exact yields_pure (by decide)
  refine (yields_acceptKeyword _).bind fun _ _ => yields_ite (fun _ => ?_) fun _ => ?_
  · refine (yields_acceptKeyword _).bind fun _ _ => yields_ite (fun _ => ?_) fun _ => ?_
    · exact yields_pure (by decide)
    · exact yields_pure (by decide)
  · exact yields_unexpected _

theorem yields_sequenceType {simple : Parser TypeSpec}
    (h : Yields d (fun t => t.WellFormed ∧ t.IsSimple) simple) :
    Yields d (fun t => t.WellFormed ∧ t.IsSimple) (sequenceType simple) := by
  refine (yields_expectPunct _ _).bind fun _ _ => yields_enterAngle.bind fun _ _ => ?_
  refine h.bind fun element helement => (yields_acceptPunct _).bind fun _ _ => ?_
  refine yields_ite_bind (P := fun _ => True) (fun _ => ?_) (fun _ => ?_) fun bound _ => ?_
  · exact yields_constExpr.map fun _ _ => True.intro
  · exact yields_pure True.intro
  · refine (yields_closeAngle _).bind fun _ _ => yields_pure ⟨.sequence bound helement.1, ?_⟩
    exact True.intro

theorem yields_stringType (wide : Bool) :
    Yields d (fun t => t.WellFormed ∧ t.IsSimple) (stringType wide) := by
  refine (yields_acceptPunct _).bind fun _ _ => yields_ite (fun _ => ?_) fun _ => ?_
  · refine yields_enterAngle.bind fun _ _ => yields_constExpr.bind fun bound _ => ?_
    exact (yields_closeAngle _).bind fun _ _ => yields_pure ⟨.string wide _, True.intro⟩
  · exact yields_pure ⟨.string wide _, True.intro⟩

theorem yields_fixedType : Yields d (fun t => t.WellFormed ∧ t.IsSimple) fixedType := by
  refine (yields_expectPunct _ _).bind fun _ _ => yields_enterAngle.bind fun _ _ => ?_
  refine yields_constExpr.bind fun precision _ => (yields_expectPunct _ _).bind fun _ _ => ?_
  refine (yields_expect _ _).bind fun scale _ => (yields_closeAngle _).bind fun _ _ => ?_
  exact yields_pure ⟨.fixedPoint _ _, True.intro⟩

theorem yields_simpleType : Yields d (fun t => t.WellFormed ∧ t.IsSimple) simpleType := by
  refine yields_recurse (J := fun _ => True) (fun simple hsimple _ _ => ?_) True.intro
  refine yields_peek.bind fun t _ => ?_
  split
  · exact yields_scopedName.bind fun name _ => yields_pure ⟨.named name, True.intro⟩
  · exact yields_scopedName.bind fun name _ => yields_pure ⟨.named name, True.intro⟩
  · exact yields_take.bind fun _ _ => yields_longType.bind fun type h =>
      yields_pure ⟨.basic type, h⟩
  · exact yields_take.bind fun _ _ => yields_unsignedType.bind fun type h =>
      yields_pure ⟨.basic type, h⟩
  · exact yields_take.bind fun _ _ => yields_sequenceType (hsimple () True.intro)
  · exact yields_take.bind fun _ _ => yields_stringType false
  · exact yields_take.bind fun _ _ => yields_stringType true
  · exact yields_take.bind fun _ _ => yields_fixedType
  · split
    · exact yields_unexpected _
    next type htype =>
      refine yields_take.bind fun _ _ => yields_pure ⟨.basic type, ?_⟩
      exact basicType?_ne_void htype

/-! ## Constructed types -/

theorem yields_enumType {properties : List Property} (h : Property.Distinct properties) :
    Yields d EnumType.WellFormed (enumType properties) := by
  refine (yields_expectKeyword _ _).bind fun _ _ => yields_identifier?.bind fun name _ => ?_
  refine (yields_expectPunct _ _).bind fun _ _ => (yields_identifier _).bind fun first _ => ?_
  refine (yields_commaMore (yields_identifier _).trivial).bind fun more _ => ?_
  exact (yields_expectPunct _ _).bind fun _ _ => yields_pure ⟨h, List.cons_ne_nil _ _⟩

theorem yields_fieldOf {type : TypeSpec} {properties : List Property} (htype : type.WellFormed)
    (h : Property.Distinct properties) : Yields d Field.WellFormed (fieldOf type properties) :=
  yields_declarators.bind fun _ hds => (yields_expectPunct _ _).bind fun _ _ =>
    yields_pure (.intro htype hds.1 hds.2 h)

theorem yields_fields {type : Parser TypeSpec} (htype : Yields d TypeSpec.WellFormed type) :
    Yields d (fun fs => ∀ f ∈ fs, f.WellFormed) (fields type) :=
  yields_manyUntil _ <| yields_lead.bind fun _ hl => htype.bind fun _ ht =>
    yields_fieldOf ht hl.properties

theorem yields_structType {type : Parser TypeSpec} {properties : List Property}
    (htype : Yields d TypeSpec.WellFormed type) (h : Property.Distinct properties) :
    Yields d StructType.WellFormed (structType type properties) := by
  refine (yields_expectKeyword _ _).bind fun _ _ => yields_identifier?.bind fun name _ => ?_
  refine (yields_expectPunct _ _).bind fun _ _ => (yields_fields htype).bind fun fs hfs => ?_
  exact yields_pure (.intro h hfs)

/-- The check of the type that selects the cases is as strict as it has to be. -/
theorem isSelector_iff {type : TypeSpec} : isSelector type ↔ type.IsSelector := by
  cases type <;> simp [isSelector, TypeSpec.IsSelector]

theorem yields_selector : Yields d (fun t => t.WellFormed ∧ t.IsSelector) selector := by
  refine (yields_isNext _).bind fun _ _ => yields_ite (fun _ => ?_) fun _ => ?_
  · exact (yields_enumType Property.Distinct.nil).bind fun _ he =>
      yields_pure ⟨.enum he, True.intro⟩
  · refine yields_simpleType.bind fun type htype => yields_ite (fun h => ?_) fun _ => ?_
    · exact yields_pure ⟨htype.1, isSelector_iff.1 h⟩
    · exact yields_fail _

theorem yields_caseLabels : Yields d (fun ls => ls ≠ []) caseLabels := by
  refine Yields.bind (yields_many (P := fun _ => True) ?_) fun ls _ => yields_ite (fun _ => ?_)
    fun h => ?_
  · refine (yields_acceptKeyword _).bind fun _ _ => yields_ite (fun _ => ?_) fun _ => ?_
    · refine yields_constExpr.bind fun _ _ => (yields_expectPunct _ _).bind fun _ _ => ?_
      exact yields_pure fun _ _ => True.intro
    refine (yields_acceptKeyword _).bind fun _ _ => yields_ite (fun _ => ?_) fun _ => ?_
    · exact (yields_expectPunct _ _).bind fun _ _ => yields_pure fun _ _ => True.intro
    · exact yields_pure fun _ _ => True.intro
  · exact yields_unexpected _
  · exact yields_pure (by simpa using h)

theorem yields_unionCase {type : Parser TypeSpec} (htype : Yields d TypeSpec.WellFormed type) :
    Yields d UnionCase.WellFormed (unionCase type) := by
  refine yields_caseLabels.bind fun labels hlabels => htype.bind fun type ht => ?_
  refine yields_declarator.bind fun declarator hdeclarator => ?_
  refine (yields_expectPunct _ _).bind fun _ _ => yields_pure (.intro hlabels ?_ rfl)
  exact .intro ht (List.cons_ne_nil _ _) (List.forall_mem_singleton.2 hdeclarator) .nil

theorem yields_unionType {type : Parser TypeSpec} {properties : List Property}
    (htype : Yields d TypeSpec.WellFormed type) (h : Property.Distinct properties) :
    Yields d UnionType.WellFormed (unionType type properties) := by
  refine (yields_expectKeyword _ _).bind fun _ _ => yields_identifier?.bind fun name _ => ?_
  refine (yields_expectKeyword _ _).bind fun _ _ => (yields_expectPunct _ _).bind fun _ _ => ?_
  refine yields_selector.bind fun selector hselector => ?_
  refine (yields_expectPunct _ _).bind fun _ _ => (yields_expectPunct _ _).bind fun _ _ => ?_
  refine (yields_unionCase htype).bind fun first hfirst => ?_
  refine (yields_manyUntil _ (yields_unionCase htype)).bind fun more hmore => yields_pure ?_
  exact .intro h hselector.1 hselector.2 (List.cons_ne_nil _ _)
    (List.forall_mem_cons.2 ⟨hfirst, hmore⟩)

/-- A constructed type is well-formed, also as a definition. -/
theorem yields_constructed? {type : Parser TypeSpec} {properties : List Property}
    (htype : Yields d TypeSpec.WellFormed type) (h : Property.Distinct properties) :
    Yields d (fun r? => ∀ r ∈ r?, r.1.WellFormed ∧ r.2.WellFormed d)
      (constructed? type properties) := by
  refine yields_kind?.bind fun kind? _ => ?_
  split
  · refine (yields_structType htype h).bind fun s hs => yields_pure fun r hr => ?_
    cases hr
    exact ⟨.struct hs, .struct hs⟩
  · refine (yields_unionType htype h).bind fun u hu => yields_pure fun r hr => ?_
    cases hr
    exact ⟨.union hu, .union hu⟩
  · refine (yields_enumType h).bind fun e he => yields_pure fun r hr => ?_
    cases hr
    exact ⟨.enum he, .enum he⟩
  · exact yields_pure fun _ hr => by cases hr

theorem yields_typeSpec : Yields d TypeSpec.WellFormed typeSpec := by
  refine yields_recurse (J := fun _ => True) (fun type htype _ _ => ?_) True.intro
  refine (yields_constructed? (htype () True.intro) Property.Distinct.nil).bind fun r? hr? => ?_
  split
  next => exact yields_pure (hr? _ rfl).1
  next => exact yields_simpleType.mono fun _ h => h.1

end Parser

end IdlFrontend
