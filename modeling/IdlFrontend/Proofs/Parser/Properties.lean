import IdlFrontend.Proofs.Parser.Productions
import IdlFrontend.Proofs.Parser.Returns

/-!
# The properties of definitions

What is declared has the properties in front of it: no production drops them or adds others.

Results:

* `results_interface`, `results_declarationOrType?`: declarations have the properties of their lead.
* `results_afterLead`: so do definitions.
-/

namespace IdlFrontend

/-- The properties of a definition that can have some. -/
def Definition.properties : Definition → List Property
  | .module _ | .fragment _ => []
  | .interface i => i.properties
  | .valueType v => v.properties
  | .struct s => s.properties
  | .union u => u.properties
  | .enum e => e.properties
  | .typeDef t => t.properties
  | .native n => n.properties
  | .exception e => e.properties
  | .constant c => c.properties
  | .attribute a => a.properties
  | .operation o => o.properties
  | .field f => f.properties

namespace Parser

variable {α β : Type} {P : α → Prop} {Q : β → Prop} {type : Parser TypeSpec} {l : Lead}

/-- Every result of the parser has the property. -/
abbrev Results (P : α → Prop) (p : Parser α) : Prop := Returns (fun _ => True) P p

/-- Nothing is known about the result of the first parser. -/
theorem results_bind {p : Parser α} {f : α → Parser β} (h : ∀ a, Results Q (f a)) :
    Results Q (p >>= f) := by
  intro s b u _ hrun
  obtain ⟨a, t, -, hrun⟩ := exists_of_run_bind hrun
  exact h a t b u trivial hrun

/-! ## Declarations -/

theorem results_enumType (properties : List Property) :
    Results (EnumType.properties · = properties) (enumType properties) :=
  results_bind fun _ => results_bind fun _ => results_bind fun _ => results_bind fun _ =>
    results_bind fun _ =>
    results_bind fun _ => returns_pure rfl

theorem results_structType (properties : List Property) :
    Results (StructType.properties · = properties) (structType type properties) :=
  results_bind fun _ => results_bind fun _ => results_bind fun _ => results_bind fun _ =>
    returns_pure rfl

theorem results_unionType (properties : List Property) :
    Results (UnionType.properties · = properties) (unionType type properties) :=
  results_bind fun _ => results_bind fun _ => results_bind fun _ => results_bind fun _ =>
    results_bind fun _ =>
    results_bind fun _ => results_bind fun _ => results_bind fun _ => results_bind fun _ =>
      returns_pure rfl

theorem results_constructed? (properties : List Property) :
    Results (fun r => ∀ c ∈ r, c.2.properties = properties) (constructed? type properties) := by
  refine results_bind fun kind => ?_
  split
  · exact (results_structType properties).bind fun s hs =>
      returns_pure fun c hc => by cases hc; exact hs
  · exact (results_unionType properties).bind fun u hu =>
      returns_pure fun c hc => by cases hc; exact hu
  · exact (results_enumType properties).bind fun e he =>
      returns_pure fun c hc => by cases hc; exact he
  · exact returns_pure nofun

theorem results_typeDef (l : Lead) : Results (TypeDef.properties · = l.properties) (typeDef l) :=
  results_bind fun _ => results_bind fun _ => results_bind fun _ => returns_pure rfl

theorem results_native (l : Lead) :
    Results (NativeType.properties · = l.properties) (native l) := by
  refine results_bind fun _ => results_bind fun _ => results_bind fun _ =>
    returns_ite (fun _ => ?_) fun _ => ?_
  · exact results_bind fun _ => results_bind fun _ => returns_pure rfl
  · exact returns_pure rfl

theorem results_exceptionType (l : Lead) :
    Results (ExceptionType.properties · = l.properties) (exceptionType l) :=
  results_bind fun _ => results_bind fun _ => results_bind fun _ => results_bind fun _ =>
    returns_pure rfl

theorem results_constant (l : Lead) : Results (Constant.properties · = l.properties) (constant l) :=
  results_bind fun _ => results_bind fun _ => results_bind fun _ => results_bind fun _ =>
    results_bind fun _ =>
    returns_pure rfl

theorem results_valueTypeOf (member : Parser (Option Definition)) (l : Lead) :
    Results (ValueType.properties · = l.properties) (valueTypeOf member l) := by
  have hrest (name : Option Text) (base : Option TypeSpec) :
      Results (ValueType.properties · = l.properties) (do
      if ← acceptPunct .openBrace then
        let members ← manyUntil .closeBrace member
        return ⟨name, l.properties, base, some (members.filterMap id)⟩
      else return ⟨name, l.properties, base, none⟩) := by
    refine results_bind fun _ => returns_ite (fun _ => ?_) fun _ => returns_pure rfl
    exact results_bind fun _ => returns_pure rfl
  refine results_bind fun _ => results_bind fun name => results_bind fun _ =>
    results_bind fun _ => ?_
  refine returns_ite (fun _ => results_bind (hrest name)) fun _ =>
    returns_ite (fun _ => ?_) fun _ => ?_
  · exact results_bind (hrest name)
  · exact results_bind (hrest name)

theorem results_declaration? {valueType : Lead → Parser ValueType}
    (h : Results (ValueType.properties · = l.properties) (valueType l)) :
    Results (fun d? => ∀ d ∈ d?, d.properties = l.properties) (declaration? valueType l) := by
  refine results_bind fun kind => ?_
  split
  · exact (results_typeDef l).bind fun t ht => returns_pure fun d hd => by cases hd; exact ht
  · exact (results_native l).bind fun n hn => returns_pure fun d hd => by cases hd; exact hn
  · exact h.bind fun v hv => returns_pure fun d hd => by cases hd; exact hv
  · exact (results_exceptionType l).bind fun e he => returns_pure fun d hd => by cases hd; exact he
  · exact (results_constant l).bind fun c hc => returns_pure fun d hd => by cases hd; exact hc
  · exact returns_pure nofun

theorem results_declarationOrType? {valueType : Lead → Parser ValueType}
    (h : Results (ValueType.properties · = l.properties) (valueType l)) :
    Results (fun d? => ∀ d ∈ d?, d.properties = l.properties) (declarationOrType? valueType l) := by
  refine (results_constructed? l.properties).bind fun c? hc => ?_
  split
  · exact returns_pure fun d hd => by cases hd; exact hc _ rfl
  · exact results_declaration? h

/-- An interface has the properties in front of it. -/
theorem results_interface (l : Lead) :
    Results (Interface.properties · = l.properties) (interface l) := by
  unfold interface
  refine returns_unless (results_bind fun _ => results_bind fun _ => results_bind fun _ =>
    results_bind fun _ => ?_)
  refine returns_ite (fun _ => returns_pure rfl) fun _ => results_bind fun _ =>
    returns_ite (fun _ => ?_) fun _ => ?_
  · exact results_bind fun _ => results_bind fun _ => results_bind fun _ => returns_pure rfl
  · exact results_bind fun _ => results_bind fun _ => results_bind fun _ => returns_pure rfl

/-! ## Definitions -/

/-- A definition with the properties is defined, or nothing is defined and stands in front of it. -/
def Defines (l : Lead) (d? : Option Definition) : Prop :=
  (∀ d ∈ d?, d.properties = l.properties) ∧ (d? = none → l.isEmpty)

theorem results_ended {d : Definition} (h : d.properties = l.properties) :
    Results (Defines l) (ended d) :=
  results_bind fun _ => returns_pure ⟨fun _ hd => Option.some.inj hd ▸ h, nofun⟩

theorem results_interfaceOrDeclaration (l : Lead) :
    Results (Defines l) (interfaceOrDeclaration l) := by
  refine results_bind fun _ =>
    returns_ite (fun _ => (results_interface l).bind fun _ hi => results_ended hi) fun _ => ?_
  refine (results_declarationOrType? (results_valueTypeOf valueMember l)).bind fun d? hd? => ?_
  split
  next d => exact results_ended (hd? d rfl)
  · exact returns_of_fails (fails_unexpected _)

/-- Where nothing stands in front, a definition without properties can be found, or none. -/
theorem defines_of_isEmpty (hl : l.isEmpty) {d? : Option Definition}
    (hd : ∀ d ∈ d?, d.properties = []) :
    Defines l d? := by
  refine ⟨fun d h => ?_, fun _ => hl⟩
  rw [Lead.isEmpty, Bool.and_eq_true, List.isEmpty_iff, List.isEmpty_iff] at hl
  rw [hd d h, hl.2]

theorem results_bare? (l : Lead) : Results (fun d?? => ∀ d? ∈ d??, Defines l d?) (bare? l) := by
  unfold bare?
  refine returns_ite (fun _ => returns_pure nofun) fun hl => ?_
  rw [Bool.not_eq_true', Bool.not_eq_false] at hl
  refine results_bind fun _ => returns_ite (fun _ => returns_pure fun d? h => ?_) fun _ => ?_
  · obtain rfl := Option.some.inj h
    exact defines_of_isEmpty hl nofun
  refine results_bind fun _ => returns_ite (fun _ => results_bind fun t => returns_pure fun d? h =>
    ?_) fun _ => ?_
  · obtain rfl := Option.some.inj h
    exact defines_of_isEmpty hl fun d hd => Option.some.inj hd ▸ rfl
  · exact returns_pure nofun

/-- **A definition has the properties in front of it.** -/
theorem results_afterLead (definition : Parser (Option Definition)) (l : Lead) (t : Token) :
    Results (Defines l) (afterLead definition l t) := by
  refine (results_bare? l).bind fun d?? hd?? => ?_
  split
  next d? => exact returns_pure (hd?? d? rfl)
  refine returns_ite (fun hl => ?_) fun _ => results_interfaceOrDeclaration l
  split
  · refine results_bind fun m => results_bind fun _ =>
      returns_pure (defines_of_isEmpty hl fun d hd => ?_)
    obtain rfl := Option.some.inj hd
    rfl
  · exact results_bind fun _ => returns_pure (defines_of_isEmpty hl nofun)
  · exact results_bind fun _ => returns_pure (defines_of_isEmpty hl nofun)
  · exact results_interfaceOrDeclaration l

end Parser

end IdlFrontend
