import IdlFrontend.Grammar.Type
import IdlFrontend.Proofs.Reading.ConstExpr

/-!
# Reading template types

A type that is basic, named or a template is written as its words. Every closing bracket is a word,
and the words of a bound are those of an expression within a template.

Results:

* `reads_simpleType`, `reads_typeSpec`: the words of a type are read as the type.
* `TypeSpec.isChain_words`: no shift follows a closing bracket.
* `typeSpec_spaced`: a type that is written down is read back, with or without blanks between its
  closing brackets.
-/

namespace IdlFrontend

/-! ## Words -/

/-- The keywords that a basic type is written with. -/
def BasicType.keywords : BasicType → List Keyword
  | .float => [.float]
  | .double => [.double]
  | .longDouble => [.long, .double]
  | .short => [.short]
  | .long => [.long]
  | .longLong => [.long, .long]
  | .unsignedShort => [.unsigned, .short]
  | .unsignedLong => [.unsigned, .long]
  | .unsignedLongLong => [.unsigned, .long, .long]
  | .char => [.char]
  | .wchar => [.wchar]
  | .boolean => [.boolean]
  | .octet => [.octet]
  | .any => [.any]
  | .object => [.object]
  | .typeCode => [.typeCode]
  | .void => [.void]
  | .fixed => [.fixed]

/-- Whether the type can be the type of a value. The others stand for no result, and for constants
    whose digits are not known. -/
def BasicType.isValueType : BasicType → Bool
  | .void | .fixed => false
  | _ => true

/-- The words of a bound behind a comma, if there is one. -/
def boundWords (bound : Option ConstExpr) : List Word :=
  bound.elim [] fun e => .punct .comma :: e.words true 0

/-- The words of a type that is not constructed. -/
def TypeSpec.words : TypeSpec → List Word
  | .basic type => type.keywords.map .keyword
  | .named x => x.words
  | .fixedPoint precision scale =>
    .keyword .fixed :: .punct .less :: (precision.words true 0 ++
      .punct .comma :: (scale.words true 0 ++ [.closing]))
  | .sequence element bound =>
    .keyword .sequence :: .punct .less :: (element.words ++ (boundWords bound ++ [.closing]))
  | .string wide bound =>
    .keyword (if wide then .wstring else .string) ::
      bound.elim [] fun e => .punct .less :: (e.words true 0 ++ [.closing])
  | .struct _ | .union _ | .enum _ => []

/-- A type that can be written down: a basic type of the dialect, a name or a template. The scale of
    a fixed-point type is an integer literal. -/
def TypeSpec.IsTemplate (d : Dialect) : TypeSpec → Prop
  | .basic type => type.isValueType ∧ ∀ k ∈ type.keywords, k.isIn d
  | .named x => x.IsWritable d
  | .fixedPoint precision scale =>
    precision.IsWritable d ∧ ∃ text, scale = .literal (.integer text) ∧
      IsToken d .ordinary .integer text
  | .sequence element bound => element.IsTemplate d ∧ ∀ e ∈ bound, e.IsWritable d
  | .string _ bound => ∀ e ∈ bound, e.IsWritable d
  | .struct _ | .union _ | .enum _ => False

/-- What comes next is not the rest of a type. -/
def Place.EndsType (P : Place) : Prop :=
  P.Avoids fun kind => kind ∈ [.punct .scope, .keyword .long, .keyword .double, .punct .less]

variable {d : Dialect} {P Q : Place} {n : Nat} {w : Word} {ws us : List Word} {l : Lexer}

/-- The words of a type begin like a type, but not like a constructed one. -/
theorem TypeSpec.IsTemplate.exists_words {t : TypeSpec} (ht : t.IsTemplate d) :
    ∃ w vs, t.words = w :: vs ∧ w ≠ .closing ∧ Parser.startsType w.kind ∧
      w.kind ∉ [.keyword .struct, .keyword .union, .keyword .enum] := by
  cases t with
  | basic type =>
    have hvalue : type.isValueType := ht.1
    cases type with
    | void | fixed => cases hvalue
    | _ => exact ⟨_, _, rfl, by rintro ⟨⟩, by decide, by decide⟩
  | named x =>
    obtain ⟨w, vs, hwords, rfl | ⟨name, rfl⟩⟩ := x.exists_words
    · exact ⟨_, vs, hwords, by rintro ⟨⟩, rfl, by decide⟩
    · exact ⟨_, vs, hwords, by rintro ⟨⟩, rfl, by simp [Word.kind]⟩
  | string wide bound => cases wide <;> exact ⟨_, _, rfl, by rintro ⟨⟩, by decide, by decide⟩
  | fixedPoint | sequence => exact ⟨_, _, rfl, by rintro ⟨⟩, by decide, by decide⟩
  | struct | union | enum => cases ht

theorem Place.endsType_cons (h : ∀ k ∈ w.kinds,
    k ∉ [.punct .scope, .keyword .long, .keyword .double, .punct .less]) :
    Place.EndsType ⟨n, w :: ws, l⟩ :=
  Place.avoids_cons h

namespace Parser

variable {simple : Unit → Parser TypeSpec}

/-! ## Types without a template -/

/-- A type that is one keyword. -/
theorem reads_oneKeyword {k : Keyword} {type : BasicType}
    (hk : basicType? (.keyword k) = some type) :
    Reads (simpleRound simple ()) ⟨n, .keyword k :: us, l⟩ (.basic type) ⟨n, us, l⟩ := by
  refine (finds_peek n (.keyword k) us l).bind fun t ht => ?_
  rw [kind_of_sees ht (by rintro ⟨⟩)]
  have htake : Reads (do let _ ← take; return TypeSpec.basic type) ⟨n, .keyword k :: us, l⟩
      (.basic type) ⟨n, us, l⟩ :=
    (finds_take (.keyword k) (by rintro ⟨⟩) (by rintro ⟨⟩)).bind fun _ _ => reads_pure _ _
  cases k <;> cases hk <;> exact htake

theorem reads_longType {type : BasicType} {ks : List Keyword}
    (htype : (type, ks) ∈ [(.long, []), (.longLong, [.long]), (.longDouble, [.double])])
    (hend : Place.EndsType ⟨n, us, l⟩) :
    Reads longType ⟨n, ks.map .keyword ++ us, l⟩ type ⟨n, us, l⟩ := by
  have havoid (k : Keyword) (hk : k ∈ [.long, .double]) :
      Place.Avoids (· = .keyword k) ⟨n, us, l⟩ := by
    refine hend.mono fun kind hkind => ?_
    rw [hkind]
    simp only [List.mem_cons, List.not_mem_nil, or_false] at hk
    rcases hk with rfl | rfl <;> decide
  simp only [List.mem_cons, List.not_mem_nil, or_false, Prod.mk.injEq] at htype
  rcases htype with ⟨rfl, rfl⟩ | ⟨rfl, rfl⟩ | ⟨rfl, rfl⟩
  · refine (reads_accept_false (havoid .long (by decide))).bind ?_
    exact (reads_accept_false (havoid .double (by decide))).bind (reads_pure _ _)
  · exact (reads_acceptKeyword .long).bind (reads_pure _ _)
  · refine Reads.bind (reads_accept_false (Place.avoids_word (by rintro ⟨⟩) (by rintro ⟨⟩))) ?_
    exact (reads_acceptKeyword .double).bind (reads_pure _ _)

theorem reads_unsignedType {type : BasicType} {ks : List Keyword}
    (htype : (type, ks) ∈ [(.unsignedShort, [.short]), (.unsignedLong, [.long]),
      (.unsignedLongLong, [.long, .long])])
    (hend : Place.EndsType ⟨n, us, l⟩) :
    Reads unsignedType ⟨n, ks.map .keyword ++ us, l⟩ type ⟨n, us, l⟩ := by
  have hlong : Place.Avoids (· = .keyword .long) ⟨n, us, l⟩ := by
    refine hend.mono fun kind hkind => ?_
    rw [hkind]
    decide
  simp only [List.mem_cons, List.not_mem_nil, or_false, Prod.mk.injEq] at htype
  rcases htype with ⟨rfl, rfl⟩ | ⟨rfl, rfl⟩ | ⟨rfl, rfl⟩
  · exact (reads_acceptKeyword .short).bind (reads_pure _ _)
  · refine Reads.bind (reads_accept_false (Place.avoids_word (by rintro ⟨⟩) (by rintro ⟨⟩))) ?_
    refine (reads_acceptKeyword .long).bind ?_
    exact (reads_accept_false hlong).bind (reads_pure _ _)
  · refine Reads.bind (reads_accept_false (Place.avoids_word (by rintro ⟨⟩) (by rintro ⟨⟩))) ?_
    refine (reads_acceptKeyword .long).bind ?_
    exact (reads_acceptKeyword .long).bind (reads_pure _ _)

theorem reads_basic {type : BasicType} (htype : type.isValueType)
    (hend : Place.EndsType ⟨n, us, l⟩) :
    Reads (simpleRound simple ()) ⟨n, type.keywords.map .keyword ++ us, l⟩ (.basic type)
      ⟨n, us, l⟩ := by
  have hlong {ks : List Keyword}
      (h : (type, ks) ∈ [(.long, []), (.longLong, [.long]), (.longDouble, [.double])]) :
      Reads (simpleRound simple ()) ⟨n, .keyword .long :: (ks.map .keyword ++ us), l⟩ (.basic type)
        ⟨n, us, l⟩ := by
    refine (finds_peek n (.keyword .long) _ l).bind fun t ht => ?_
    rw [kind_of_sees ht (by rintro ⟨⟩)]
    refine (finds_take (.keyword .long) (by rintro ⟨⟩) (by rintro ⟨⟩)).bind fun _ _ => ?_
    exact (reads_longType h hend).bind (reads_pure _ _)
  have hunsigned {ks : List Keyword} (h : (type, ks) ∈ [(.unsignedShort, [.short]),
      (.unsignedLong, [.long]), (.unsignedLongLong, [.long, .long])]) :
      Reads (simpleRound simple ()) ⟨n, .keyword .unsigned :: (ks.map .keyword ++ us), l⟩
        (.basic type) ⟨n, us, l⟩ := by
    refine (finds_peek n (.keyword .unsigned) _ l).bind fun t ht => ?_
    rw [kind_of_sees ht (by rintro ⟨⟩)]
    refine (finds_take (.keyword .unsigned) (by rintro ⟨⟩) (by rintro ⟨⟩)).bind fun _ _ => ?_
    exact (reads_unsignedType h hend).bind (reads_pure _ _)
  cases type with
  | long | longLong | longDouble => exact hlong (by decide)
  | unsignedShort | unsignedLong | unsignedLongLong => exact hunsigned (by decide)
  | void | fixed => cases htype
  | _ => exact reads_oneKeyword rfl

theorem reads_named (x : ScopedName) (hend : Place.EndsType ⟨n, us, l⟩) :
    Reads (simpleRound simple ()) ⟨n, x.words ++ us, l⟩ (.named x) ⟨n, us, l⟩ := by
  have hscope : Place.Avoids (· = .punct .scope) ⟨n, us, l⟩ := by
    refine hend.mono fun kind hkind => ?_
    rw [hkind]
    decide
  have hname : Reads (do return TypeSpec.named (← scopedName)) ⟨n, x.words ++ us, l⟩ (.named x)
      ⟨n, us, l⟩ := (reads_scopedName x hscope).bind (reads_pure _ _)
  obtain ⟨w, vs, hwords, hw⟩ := x.exists_words
  rw [hwords] at hname ⊢
  refine (finds_peek n w _ l).bind fun t ht => ?_
  rcases hw with rfl | ⟨name, rfl⟩
  · rw [kind_of_sees ht (by rintro ⟨⟩)]
    exact hname
  · rw [kind_of_sees ht (by rintro ⟨⟩)]
    exact hname

/-! ## Templates -/

theorem reads_bound {e : ConstExpr} (he : e.isProper) {p : Punct}
    (hp : p = .greater ∨ p = .comma) :
    Reads constExpr ⟨n + 1, e.words true 0 ++ .punct p :: us, l⟩ e ⟨n + 1, .punct p :: us, l⟩ := by
  refine (ConstExpr.sentence_words he true (Nat.zero_le 7)).reads_constExpr (by simp) ?_
  rcases hp with rfl | rfl
  · exact Place.stops_closing
  · exact Place.stops_punct (by decide)

theorem reads_sequenceType {element : TypeSpec} {bound : Option ConstExpr} {p : Parser TypeSpec}
    (hbound : ∀ e ∈ bound, e.isProper)
    (h : Reads p ⟨n + 1, element.words ++ (boundWords bound ++ .closing :: us), l⟩ element
      ⟨n + 1, boundWords bound ++ .closing :: us, l⟩) :
    Reads (sequenceType p)
      ⟨n, .punct .less :: (element.words ++ (boundWords bound ++ .closing :: us)), l⟩
      (.sequence element bound) ⟨n, us, l⟩ := by
  refine (reads_expectPunct _ (by decide)).bind (reads_enterAngle.bind (h.bind ?_))
  cases bound with
  | none =>
    refine Reads.bind (reads_accept_false (Place.avoids_cons (by decide))) ?_
    exact Reads.bind (reads_pure none _) ((reads_closeAngle _).bind (reads_pure _ _))
  | some e =>
    refine (reads_acceptPunct (by decide)).bind ?_
    refine Reads.bind ((reads_bound (hbound e rfl) (.inl rfl)).map some) ?_
    exact (reads_closeAngle _).bind (reads_pure _ _)

theorem reads_stringType {wide : Bool} {bound : Option ConstExpr} (hbound : ∀ e ∈ bound, e.isProper)
    (hend : Place.EndsType ⟨n, us, l⟩) :
    Reads (stringType wide)
      ⟨n, (bound.elim [] fun e => .punct .less :: (e.words true 0 ++ [.closing])) ++ us, l⟩
      (.string wide bound) ⟨n, us, l⟩ := by
  cases bound with
  | none =>
    refine Reads.bind (reads_accept_false (hend.mono fun kind hkind => ?_)) (reads_pure _ _)
    rw [hkind]
    decide
  | some e =>
    rw [Option.elim_some, List.cons_append, List.append_assoc]
    refine (reads_acceptPunct (by decide)).bind (reads_enterAngle.bind ?_)
    exact Reads.bind (reads_bound (hbound e rfl) (.inl rfl))
      ((reads_closeAngle _).bind (reads_pure _ _))

theorem reads_fixedType {precision : ConstExpr} (hprecision : precision.isProper) (text : Text) :
    Reads fixedType ⟨n, .punct .less :: (precision.words true 0 ++
        .punct .comma :: .integer text :: .closing :: us), l⟩
      (.fixedPoint precision (.literal (.integer text))) ⟨n, us, l⟩ := by
  refine (reads_expectPunct _ (by decide)).bind (reads_enterAngle.bind ?_)
  refine Reads.bind (reads_bound hprecision (.inr rfl)) ((reads_expectPunct _ (by decide)).bind ?_)
  refine (finds_expect (.integer text) (by rintro ⟨⟩) (by rintro ⟨⟩) rfl).bind fun t ht => ?_
  refine (reads_closeAngle _).bind (reads_pure_of_eq ?_ _)
  obtain ⟨kind, text', line⟩ := t
  cases kind <;> cases ht
  rfl

/-! ## Types -/

theorem boundWords_endsType (bound : Option ConstExpr) :
    Place.EndsType ⟨n, boundWords bound ++ .closing :: us, l⟩ := by
  cases bound <;> exact Place.endsType_cons (by decide)

/-- Each round of the recursion reads the element of a sequence from further on. -/
theorem reads_unfold_simpleRound {t : TypeSpec} (ht : t.IsTemplate d) {depth : Nat}
    (hdepth : Place.size ⟨n, t.words ++ us, l⟩ < depth) (hend : Place.EndsType ⟨n, us, l⟩) :
    Reads (unfold simpleRound depth ()) ⟨n, t.words ++ us, l⟩ t ⟨n, us, l⟩ := by
  fun_induction TypeSpec.words t generalizing n us depth
  all_goals obtain ⟨depth, rfl⟩ := Nat.exists_eq_add_one_of_ne_zero (Nat.ne_zero_of_lt hdepth)
  case case1 type => exact reads_basic ht.1 hend
  case case2 x => exact reads_named x hend
  case case3 precision scale =>
    obtain ⟨hprecision, text, rfl, -⟩ := ht
    rw [List.cons_append, List.cons_append, List.append_assoc, List.cons_append]
    refine (finds_peek n (.keyword .fixed) _ l).bind fun t hsees => ?_
    rw [kind_of_sees hsees (by rintro ⟨⟩)]
    refine Finds.bind (finds_take (.keyword .fixed) (by rintro ⟨⟩) (by rintro ⟨⟩)) fun _ _ => ?_
    exact reads_fixedType hprecision.isProper text
  case case4 element bound ih =>
    rw [List.cons_append, List.cons_append, List.append_assoc, List.append_assoc] at hdepth ⊢
    refine (finds_peek n (.keyword .sequence) _ l).bind fun t hsees => ?_
    rw [kind_of_sees hsees (by rintro ⟨⟩)]
    refine Finds.bind (finds_take (.keyword .sequence) (by rintro ⟨⟩) (by rintro ⟨⟩)) fun _ _ => ?_
    refine reads_sequenceType (fun e he => (ht.2 e he).isProper)
      (ih ht.1 ?_ (boundWords_endsType bound))
    have hsize : Place.size ⟨n + 1, element.words ++ (boundWords bound ++ .closing :: us), l⟩ <
        Place.size ⟨n, [.keyword .sequence, .punct .less] ++
          (element.words ++ (boundWords bound ++ .closing :: us)), l⟩ :=
      Place.size_lt (List.cons_ne_nil _ _) _ l
    exact Nat.lt_of_lt_of_le hsize (Nat.le_of_lt_succ hdepth)
  case case5 wide bound =>
    have hstring : Reads (stringType wide)
        ⟨n, (bound.elim [] fun e => .punct .less :: (e.words true 0 ++ [.closing])) ++ us, l⟩
        (.string wide bound) ⟨n, us, l⟩ :=
      reads_stringType (fun e he => (ht e he).isProper) hend
    cases wide with
    | false =>
      refine (finds_peek n (.keyword .string) _ l).bind fun t hsees => ?_
      rw [kind_of_sees hsees (by rintro ⟨⟩)]
      exact Finds.bind (finds_take (.keyword .string) (by rintro ⟨⟩) (by rintro ⟨⟩)) fun _ _ =>
        hstring
    | true =>
      refine (finds_peek n (.keyword .wstring) _ l).bind fun t hsees => ?_
      rw [kind_of_sees hsees (by rintro ⟨⟩)]
      exact Finds.bind (finds_take (.keyword .wstring) (by rintro ⟨⟩) (by rintro ⟨⟩)) fun _ _ =>
        hstring
  all_goals cases ht

theorem reads_simpleType {t : TypeSpec} (ht : t.IsTemplate d) (hend : Place.EndsType ⟨n, us, l⟩) :
    Reads simpleType ⟨n, t.words ++ us, l⟩ t ⟨n, us, l⟩ :=
  finds_recurse fun _ hdepth => reads_unfold_simpleRound ht hdepth hend

theorem reads_constructed?_none {type : Parser TypeSpec} {properties : List Property}
    (hw : w ≠ .closing) (h : w.kind ∉ [.keyword .struct, .keyword .union, .keyword .enum]) :
    Reads (constructed? type properties) ⟨n, w :: us, l⟩ none ⟨n, w :: us, l⟩ := by
  refine (reads_kind? hw).bind ?_
  split
  next heq => exact absurd (by rw [Option.some.inj heq]; decide) h
  next heq => exact absurd (by rw [Option.some.inj heq]; decide) h
  next heq => exact absurd (by rw [Option.some.inj heq]; decide) h
  · exact reads_pure none _

theorem reads_typeSpec {t : TypeSpec} (ht : t.IsTemplate d) (hend : Place.EndsType ⟨n, us, l⟩) :
    Reads typeSpec ⟨n, t.words ++ us, l⟩ t ⟨n, us, l⟩ := by
  refine finds_recurse fun depth hdepth => ?_
  obtain ⟨depth, rfl⟩ := Nat.exists_eq_add_one_of_ne_zero (Nat.ne_zero_of_lt hdepth)
  have hsimple : Reads simpleType ⟨n, t.words ++ us, l⟩ t ⟨n, us, l⟩ := reads_simpleType ht hend
  obtain ⟨w, vs, hwords, hw, -, hkind⟩ := ht.exists_words
  rw [hwords] at hsimple ⊢
  exact (reads_constructed?_none hw hkind).bind hsimple

end Parser

/-! ## Texts -/

theorem TypeSpec.writable_words {t : TypeSpec} (ht : t.IsTemplate d) :
    Writable d .ordinary t.words .ordinary := by
  have hclosing : Writable d .ordinary [.closing] .ordinary := .closing (.nil _)
  fun_induction TypeSpec.words t
  case case1 type =>
    rw [← List.flatMap_pure_eq_map]
    refine .flatMap fun k hk => .keyword (ht.2 k hk) ?_ (.nil _)
    rintro rfl
    cases type <;> exact absurd hk (by decide)
  case case2 x => exact x.writable_words ht
  case case3 precision scale =>
    obtain ⟨hprecision, text, rfl, hscale⟩ := ht
    refine .keyword (by cases d <;> rfl) (by rintro ⟨⟩) (.punct .less ?_)
    refine (ConstExpr.writable_words hprecision true 0).append (.punct .comma ?_)
    exact (ConstExpr.writable_words (e := .literal (.integer text)) hscale true 0).append hclosing
  case case4 element bound ih =>
    refine .keyword (by cases d <;> rfl) (by rintro ⟨⟩) (.punct .less ((ih ht.1).append ?_))
    cases bound with
    | none => exact hclosing
    | some e => exact .punct .comma ((ConstExpr.writable_words (ht.2 e rfl) true 0).append hclosing)
  case case5 wide bound =>
    refine .keyword (by cases d <;> cases wide <;> rfl) (by cases wide <;> rintro ⟨⟩) ?_
    cases bound with
    | none => exact .nil _
    | some e => exact .punct .less ((ConstExpr.writable_words (ht e rfl) true 0).append hclosing)
  all_goals cases ht

/-- Words without closing brackets can stand in front of any others. -/
theorem isChain_apart_append (h : Word.closing ∉ ws) (hus : us.IsChain Word.Apart) :
    (ws ++ us).IsChain Word.Apart := by
  induction ws with
  | nil => exact hus
  | cons w ws ih =>
    rw [List.mem_cons, not_or] at h
    exact List.isChain_cons.2 ⟨fun _ _ hw => absurd hw.symm h.1, ih h.2⟩

theorem Sentence.closing_notMem {inAngles : Bool} {k : Nat} {e : ConstExpr}
    (h : Sentence inAngles k ws e) : Word.closing ∉ ws := by
  have hmark {p : Punct} (hp : p ≠ .greater) : Word.closing ≠ .punct p :=
    fun h => hp (Word.punct.inj h).symm
  induction h with
  | @binary _ op =>
    have hop := hmark (p := op.punct) (by cases op <;> decide)
    simp_all
  | tighter _ ih => exact ih
  | @unary _ op =>
    have hop := hmark (p := op.punct) (by cases op <;> decide)
    simp_all
  | name _ x =>
    obtain ⟨first, more, -, hsegments⟩ := x.exists_ofFirst
    unfold ScopedName.words
    rw [hsegments]
    split <;> simp [separated, Word.closing]
  | @literal _ v => simpa using v.word_ne.1.symm
  | strings => simp [Word.closing]
  | parenthesized => simp_all [Word.closing]

theorem ConstExpr.closing_notMem_words {e : ConstExpr} (he : e.IsWritable d) :
    Word.closing ∉ e.words true 0 :=
  (ConstExpr.sentence_words he.isProper true (Nat.zero_le 7)).closing_notMem

theorem isChain_apart_closing (hus : us.IsChain Word.Apart)
    (hhead : us.head? ≠ some (.punct .shiftRight)) : (.closing :: us).IsChain Word.Apart :=
  List.isChain_cons.2 ⟨fun _ hv _ heq => hhead (heq ▸ hv), hus⟩

theorem isChain_apart_cons (hw : w ≠ .closing) (hus : us.IsChain Word.Apart) :
    (w :: us).IsChain Word.Apart :=
  List.isChain_cons.2 ⟨fun _ _ heq => absurd heq hw, hus⟩

/-- Shifts stand in parentheses, and so never right behind a closing bracket. -/
theorem TypeSpec.isChain_words {t : TypeSpec} (ht : t.IsTemplate d) (hus : us.IsChain Word.Apart)
    (hhead : us.head? ≠ some (.punct .shiftRight)) : (t.words ++ us).IsChain Word.Apart := by
  fun_induction TypeSpec.words t generalizing us
  case case1 type => exact isChain_apart_append (by simp [Word.closing]) hus
  case case2 x => exact isChain_apart_append (Sentence.name true x).closing_notMem hus
  case case3 precision scale =>
    obtain ⟨hprecision, text, rfl, -⟩ := ht
    have hscale :=
      isChain_apart_cons (w := .integer text) (by rintro ⟨⟩) (isChain_apart_closing hus hhead)
    rw [List.cons_append, List.cons_append, List.append_assoc]
    refine isChain_apart_cons (by rintro ⟨⟩) (isChain_apart_cons (by rintro ⟨⟩) ?_)
    exact isChain_apart_append (ConstExpr.closing_notMem_words hprecision)
      (isChain_apart_cons (by rintro ⟨⟩) hscale)
  case case4 element bound ih =>
    have hclosing := isChain_apart_closing hus hhead
    rw [List.cons_append, List.cons_append, List.append_assoc, List.append_assoc]
    refine isChain_apart_cons (by rintro ⟨⟩) (isChain_apart_cons (by rintro ⟨⟩) ?_)
    cases bound with
    | none => exact ih ht.1 hclosing (by rintro ⟨⟩)
    | some e =>
      have hbound := isChain_apart_append (ConstExpr.closing_notMem_words (ht.2 e rfl)) hclosing
      exact ih ht.1 (isChain_apart_cons (by rintro ⟨⟩) hbound) (by rintro ⟨⟩)
  case case5 wide bound =>
    have hclosing := isChain_apart_closing hus hhead
    cases bound with
    | none => exact isChain_apart_cons (by cases wide <;> rintro ⟨⟩) hus
    | some e =>
      rw [Option.elim_some, List.cons_append, List.cons_append, List.append_assoc]
      refine isChain_apart_cons (by cases wide <;> rintro ⟨⟩) (isChain_apart_cons (by rintro ⟨⟩) ?_)
      exact isChain_apart_append (ConstExpr.closing_notMem_words (ht e rfl)) hclosing
  all_goals cases ht

namespace Parser

/-- A template type that is written in front of an identifier is read back, and the identifier is
    left. Behind its closing brackets there are any blanks, or none. -/
theorem typeSpec_spaced {d : Dialect} {t : TypeSpec} (ht : t.IsTemplate d) {name : Text}
    (hname : IsToken d .ordinary .identifier name) (gap : Nat → Text)
    (hgap : ∀ k, ∀ c ∈ gap k, isBlank c) (n : Nat) :
    ∃ s', run typeSpec (.ofTextWithin d (Word.spaced gap (t.words ++ [.identifier name])) n) =
      (.ok t, s') ∧
      s'.openAngles = n ∧ ∃ u, s'.tokens = [u] ∧ u.word = .identifier name := by
  have hwritable : Writable d .ordinary (t.words ++ [.identifier name]) .ordinary :=
    (TypeSpec.writable_words ht).append (.token hname (by simp) (by rintro ⟨⟩) (.nil _))
  have happart :=
    TypeSpec.isChain_words ht (List.isChain_singleton (.identifier name)) (by rintro ⟨⟩)
  obtain ⟨m, m', hat, hend⟩ := (hwritable.spaced hgap (.inr happart)).at n
  have hends : Place.EndsType ⟨n, [.identifier name], m⟩ :=
    Place.avoids_word (by rintro ⟨⟩) (by simp [Word.kind])
  obtain ⟨_, s', hrun, rfl, hat'⟩ := reads_typeSpec ht hends _ hat
  obtain ⟨u, htokens, hu⟩ := exists_tokens_of_at hat' (by rintro ⟨⟩) (by rintro ⟨⟩)
  have hnone : m.tokenize.1 = [] := by
    rw [Lexer.tokenize_of_next hend, Lexer.tokenize_of_rest_eq_nil (Lexer.rest_of_next_none hend)]
    rfl
  exact ⟨s', hrun, hat'.openAngles, u, by rw [htokens, hnone], hu⟩

/-- Three brackets are closed by a double angle and a single one, and the shift is none of them. -/
theorem typeSpec_spaced_shift :
    let bound : ConstExpr :=
      .binary .shiftRight (.literal (.integer ['8'])) (.literal (.integer ['1']))
    let t : TypeSpec := .sequence (.sequence (.string false (some bound)) none) none
    ∀ cs ∈ ["sequence < sequence < string < ( 8 >> 1 ) >>>x ".toList,
        "sequence < sequence < string < ( 8 >> 1 ) > >>x ".toList],
      ∃ s', run typeSpec (.ofTextWithin .omg cs 0) = (.ok t, s') ∧ s'.openAngles = 0 ∧
        ∃ u, s'.tokens = [u] ∧ u.word = .identifier ['x'] := by
  intro bound t cs hcs
  have height : Literal.IsWritable .omg (.integer ['8']) := by decide
  have hone : Literal.IsWritable .omg (.integer ['1']) := by decide
  have ht : t.IsTemplate .omg :=
    ⟨⟨fun e he => by cases he; exact ⟨height, hone⟩, by rintro _ ⟨⟩⟩, by rintro _ ⟨⟩⟩
  have hname : IsToken .omg .ordinary .identifier ['x'] := by decide
  simp only [List.mem_cons, List.not_mem_nil, or_false] at hcs
  rcases hcs with rfl | rfl
  · exact typeSpec_spaced ht hname (fun _ => []) (fun _ => by rintro _ ⟨⟩) 0
  · have hgap (k : Nat) : ∀ c ∈ (if k = 3 then [' '] else []), isBlank c := by
      split
      · exact List.forall_mem_singleton.2 rfl
      · rintro _ ⟨⟩
    exact typeSpec_spaced ht hname (fun k => if k = 3 then [' '] else []) hgap 0

end Parser

end IdlFrontend
