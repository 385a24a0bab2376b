import IdlFrontend.Frontend
import IdlFrontend.Proofs.Parser.Modules

/-!
# Loops that end

The rounds of a loop are bounded by what is left to read. The bound is never met: a round of any
loop of the grammar asks for another round only where less is left to read than where it began.
So a loop is a loop without a bound, and there is no other one with the same rounds.

Results:

* `Descends.unread_lt`, `Descends.run_recurse`, `Descends.eq_recurse`: what holds of a loop whose
  rounds read something before they go on.
* `IsLoop.terminates`: all of it holds of every loop of the grammar.
-/

namespace IdlFrontend

namespace Parser

variable {α β ι : Type} {bound : Nat} {p q : Parser α} {f g : α → Parser β}

/-! ## What is left to read -/

theorem unread_afterTake_lt_of_ahead {t : Token} {s : TokenStream} (h : s.ahead = some t) :
    (afterTake t s).unread < s.unread := by
  have hpos : 0 < TokenStream.weight (some t) := by
    unfold TokenStream.weight
    dsimp only
    split <;> omega
  rw [TokenStream.unread, TokenStream.unread, h]
  exact Nat.add_lt_add_left hpos _

theorem unread_of_peek? {s t : TokenStream} {t? : Option Token} (h : run peek? s = (.ok t?, t)) :
    t.unread ≤ s.unread ∧ t.ahead = t? := by
  have hle := unread_peek?_le s
  have hahead := ahead_of_peek? (s := s) (t := t?) (by rw [h])
  rw [h] at hle hahead
  exact ⟨hle, hahead⟩

/-- Taking a pragma reads nothing. -/
theorem unread_takePragma (s : TokenStream) (name : Text) :
    ({ s with lexer := (s.lexer.takePragma name).2 } : TokenStream).unread = s.unread := by
  unfold Lexer.takePragma
  split <;> rfl

theorem unread_afterHalf_lt {t : Token} {s : TokenStream} (h : s.ahead = some t)
    (ht : t.kind = .punct .shiftRight) : (afterHalf t s).unread < s.unread := by
  show 3 * s.lexer.work + 1 < s.unread
  rw [TokenStream.unread, h, TokenStream.weight, if_pos ht]
  omega

theorem unread_properties_lt {t : Token} {s : TokenStream} (h : s.ahead = some t) :
    ({ afterTake t s with lexer := s.lexer.push .properties } : TokenStream).unread < s.unread := by
  have hlt := unread_afterTake_lt_of_ahead h
  have hwork : (s.lexer.push .properties).work ≤ s.lexer.work := by
    simp only [Lexer.work, Lexer.rest_push]
    split
    next hmode => cases hmode
    · omega
  show 3 * (s.lexer.push .properties).work + 0 < s.unread
  have hunread : (afterTake t s).unread = 3 * s.lexer.work := rfl
  omega

theorem unread_moduleHead_lt {name : Text} {s u : TokenStream}
    (h : run moduleHead s = (.ok name, u)) :
    u.unread < s.unread := by
  obtain ⟨k, s₁, t, s₂, -, hk, -, ht, -, -, -, rfl⟩ := exists_of_run_moduleHead h
  obtain ⟨hle, hahead⟩ := unread_of_peek? hk
  obtain ⟨hle', hahead'⟩ := unread_of_peek? ht
  have hlt := unread_afterTake_lt_of_ahead hahead
  have hlt' := unread_afterTake_lt_of_ahead hahead'
  rw [show ({ afterTake t s₂ with lexer := (s₂.lexer.takePragma "prefix".toList).2 } :
    TokenStream).unread = (afterTake t s₂).unread from unread_takePragma (afterTake t s₂) _]
  omega

/-- Less is left to read in the stream `t` than in `s`, or not more if that is all that is known. -/
def ReadsOn (less : Bool) (s t : TokenStream) :
    Prop := if less then t.unread < s.unread else t.unread ≤ s.unread

theorem ReadsOn.trans {b c : Bool} {s t u : TokenStream} (hst : ReadsOn b s t)
    (htu : ReadsOn c t u) :
    ReadsOn (b || c) s u := by
  cases b <;> cases c <;>
    simp only [ReadsOn, Bool.false_eq_true, if_false, if_true, Bool.or_false,
      Bool.or_true] at * <;> omega

/-- What is left to read becomes less where something is read for sure, and never more. -/
def unreadCourse : Course where
  rel b _ := ReadsOn b
  refl _ := Nat.le_refl _
  trans := ReadsOn.trans
  weaken := Nat.le_of_lt
  peek h := (unread_of_peek? h).1
  take h _ := unread_afterTake_lt_of_ahead h
  half := unread_afterHalf_lt
  angles _ _ := Nat.le_refl _
  properties h _ := unread_properties_lt h
  module := unread_moduleHead_lt

/-- Whatever the token is, less is left to read when it is taken. -/
theorem advances_take : Advances unreadCourse take := fun _ _ _ hrun => by
  have hlt := unread_take_lt (congrArg Prod.fst hrun)
  rwa [hrun] at hlt

/-! ## Parsers that agree -/

/-- The parsers do the same with every stream that has less left to read than the bound. -/
def Agrees (bound : Nat) (p q : Parser α) :
    Prop := ∀ s : TokenStream, s.unread < bound → p.run s = q.run s

theorem Agrees.refl (p : Parser α) : Agrees bound p p := fun _ _ => rfl

theorem Agrees.mono {bound' : Nat} (h : Agrees bound p q) (hle : bound' ≤ bound) :
    Agrees bound' p q :=
  fun s hs => h s (Nat.lt_of_lt_of_le hs hle)

/-- Parsers one after the other. What the first one leaves matters where the second begins. -/
theorem Agrees.bind (hp : Agrees bound p q) (hgoes : Goes unreadCourse p)
    (hf : ∀ a, Agrees bound (f a) (g a)) : Agrees bound (p >>= f) (q >>= g) := by
  intro s hs
  rw [run_bind, run_bind, ← hp s hs]
  rcases hrun : p.run s with ⟨e | a, t⟩
  · rfl
  · exact hf a t (Nat.lt_of_le_of_lt (hgoes s a t hrun) hs)

theorem agrees_bind (hgoes : Goes unreadCourse p) (hf : ∀ a, Agrees bound (f a) (g a)) :
    Agrees bound (p >>= f) (p >>= g) := (Agrees.refl p).bind hgoes hf

/-- Behind a parser that reads something, less than the bound is left. -/
theorem agrees_advance (hadvances : Advances unreadCourse p) (hf : ∀ a, Agrees bound (f a) (g a)) :
    Agrees (bound + 1) (p >>= f) (p >>= g) := by
  intro s hs
  rw [run_bind, run_bind]
  rcases hrun : p.run s with ⟨e | a, t⟩
  · rfl
  · have hlt : t.unread < s.unread := hadvances s a t hrun
    exact hf a t (by omega)

theorem agrees_ite {c : Prop} [Decidable c] {p' q' : Parser α} (hp : Agrees bound p p')
    (hq : Agrees bound q q') : Agrees bound (if c then p else q) (if c then p' else q') := by
  split
  · exact hp
  · exact hq

theorem agrees_bind_ite {p : Parser Bool} {q q' r r' : Parser β}
    (hp : Leads unreadCourse id (fun _ => []) p) (hq : Agrees bound q q')
    (hr : Agrees (bound + 1) r r') :
    Agrees (bound + 1) (p >>= fun b => if b then q else r)
      (p >>= fun b => if b then q' else r') := by
  intro s hs
  rw [run_bind, run_bind]
  rcases hrun : p.run s with ⟨e | b, t⟩
  · rfl
  · have hrel := hp s b t hrun
    cases b with
    | false => exact hr t (Nat.lt_of_le_of_lt hrel hs)
    | true =>
      have hlt : t.unread < s.unread := hrel
      exact hq t (by omega)

theorem agrees_bind_option {p : Parser (Option α)} {f g : Option α → Parser β}
    (hp : Leads unreadCourse Option.isSome (fun _ => []) p)
    (hsome : ∀ a, Agrees bound (f (some a)) (g (some a)))
    (hnone : Agrees (bound + 1) (f none) (g none)) : Agrees (bound + 1) (p >>= f) (p >>= g) := by
  intro s hs
  rw [run_bind, run_bind]
  rcases hrun : p.run s with ⟨e | a?, t⟩
  · rfl
  · have hrel := hp s a? t hrun
    cases a? with
    | none => exact hnone t (Nat.lt_of_le_of_lt hrel hs)
    | some a =>
      have hlt : t.unread < s.unread := hrel
      exact hsome a t (by omega)

theorem Agrees.shielded (h : Agrees bound p q) : Agrees bound (shielded p) (shielded q) := by
  intro s hs
  rw [run_shielded, run_shielded, h { s with openAngles := 0 } hs]

/-- What is returned at the end. -/
theorem Agrees.bind_pure (h : Agrees bound p q) (f : α → β) :
    Agrees bound (p >>= fun a => pure (f a)) (q >>= fun a => pure (f a)) := by
  intro s hs
  rw [run_bind, run_bind, h s hs]

theorem agrees_unless {c : Prop} [Decidable c] {fault : SyntaxFault} {f g : PUnit → Parser β}
    (h : Agrees bound (f ⟨⟩) (g ⟨⟩)) :
    Agrees bound (if c then fail fault >>= f else f ⟨⟩) (if c then fail fault >>= g else g ⟨⟩) :=
  agrees_ite (fun _ _ => rfl) h

/-! ## Loops -/

/-- A round of a loop goes on only where it has read something. -/
structure Descends (body : (ι → Parser α) → ι → Parser α) : Prop where
  goes : ∀ more, (∀ j, Goes unreadCourse (more j)) → ∀ i, Goes unreadCourse (body more i)
  agrees : ∀ bound more more', (∀ j, Goes unreadCourse (more j)) →
    (∀ j, Agrees bound (more j) (more' j)) →
    ∀ i, Agrees (bound + 1) (body more i) (body more' i)

/-- The round from `s` asks for the one from `t`: it would come to something else if the loop did
    something else there. -/
def Asks (body : (ι → Parser α) → ι → Parser α) (loop : ι → Parser α) (i : ι)
    (s : TokenStream) (j : ι) (t : TokenStream) : Prop :=
  ∃ other : ι → Parser α, (∀ k u, k ≠ j ∨ u ≠ t → (other k).run u = (loop k).run u) ∧
    (body other i).run s ≠ (body loop i).run s

namespace Descends

variable {body : (ι → Parser α) → ι → Parser α} (h : Descends body)

include h

/-- The bound on the rounds does not matter if it is large enough. -/
theorem agrees_unfold {d e : Nat} (hd : bound ≤ d) (he : bound ≤ e) (i : ι) :
    Agrees bound (unfold body d i) (unfold body e i) := by
  induction bound generalizing d e i with
  | zero => exact fun _ hs => absurd hs (Nat.not_lt_zero _)
  | succ bound ih =>
    obtain ⟨d, rfl⟩ := Nat.exists_eq_add_of_le' hd
    obtain ⟨e, rfl⟩ := Nat.exists_eq_add_of_le' he
    exact h.agrees bound _ _ (leads_unfold h.goes (d + bound))
      (ih (Nat.le_add_left _ _) (Nat.le_add_left _ _)) i

theorem run_recurse (i : ι) (s : TokenStream) :
    (recurse body i).run s = (body (recurse body) i).run s := by
  refine h.agrees s.unread _ _ (leads_unfold h.goes s.unread) (fun j t ht => ?_) i s
    (Nat.lt_succ_self _)
  have hagrees : Agrees (t.unread + 1) (unfold body s.unread j) (unfold body (t.unread + 1) j) :=
    h.agrees_unfold ht (Nat.le_refl _) j
  exact hagrees t (Nat.lt_succ_self _)

/-- There is no other loop with the same rounds. -/
theorem eq_recurse {loop : ι → Parser α} (hloop : ∀ i s, (loop i).run s = (body loop i).run s) :
    loop = recurse body := by
  have hagrees (bound : Nat) : ∀ i, Agrees bound (recurse body i) (loop i) := by
    induction bound with
    | zero => exact fun _ _ hs => absurd hs (Nat.not_lt_zero _)
    | succ bound ih =>
      intro i s hs
      rw [h.run_recurse, hloop]
      exact h.agrees bound _ _ (leads_recurse h.goes) ih i s hs
  funext i
  exact (ext_run fun s => hagrees (s.unread + 1) i s (Nat.lt_succ_self _)).symm

/-- **A round asks for others only where less is left to read.** -/
theorem unread_lt {i j : ι} {s t : TokenStream} (hasks : Asks body (recurse body) i s j t) :
    t.unread < s.unread := by
  obtain ⟨other, hother, hne⟩ := hasks
  by_contra hle
  refine hne (h.agrees s.unread _ other (leads_recurse h.goes) (fun k u hu => ?_) i s
    (Nat.lt_succ_self _)).symm
  refine (hother k u (.inr ?_)).symm
  rintro rfl
  exact hle hu

end Descends

theorem descends_manyRound {item : Parser (Option α)}
    (h : Leads unreadCourse Option.isSome (fun _ => []) item) : Descends (manyRound item) where
  goes more hmore _ := h.goes.bind fun a? => by
    cases a? with
    | none => exact goes_pure []
    | some a => exact (hmore ()).bind fun as => goes_pure (a :: as)
  agrees bound more more' _ hagrees _ :=
    agrees_bind_option h (fun a => (hagrees ()).bind_pure (a :: ·)) (Agrees.refl _)

theorem Agrees.many {item item' : Parser (Option α)} (h : Agrees bound item item')
    (hgoes : Goes unreadCourse item) : Agrees bound (many item) (many item') := by
  have hrounds (depth : Nat) :
      Agrees bound (unfold (manyRound item) depth ()) (unfold (manyRound item') depth ()) := by
    induction depth with
    | zero => exact Agrees.refl _
    | succ depth ih =>
      refine h.bind hgoes fun a? => ?_
      cases a? with
      | none => exact Agrees.refl _
      | some a => exact ih.bind_pure (a :: ·)
  exact fun s hs => hrounds (s.unread + 1) s hs

theorem Agrees.itemUntil {item item' : Parser α} (h : Agrees bound item item') (close : Punct) :
    Agrees bound (itemUntil close item) (itemUntil close item') :=
  agrees_bind (leads_acceptPunct close).goes fun _ => agrees_ite (Agrees.refl _) (h.bind_pure some)

theorem Agrees.manyUntil {item item' : Parser α} (h : Agrees bound item item')
    (hgoes : Goes unreadCourse item) (close : Punct) :
    Agrees bound (manyUntil close item) (manyUntil close item') :=
  (h.itemUntil close).many
    ((leads_acceptPunct close).bind_ite (goes_pure none) (hgoes.bind fun a => goes_pure (some a)))

/-! ## Constant expressions -/

section Expressions

variable {expr expr' : Parser ConstExpr} (h : Agrees bound expr expr')
    (hgoes : Goes unreadCourse expr)

include h hgoes

theorem agrees_primary : Agrees (bound + 1) (primary expr) (primary expr') := by
  refine agrees_bind goes_peek fun t => ?_
  split
  · exact Agrees.refl _
  · exact Agrees.refl _
  · exact agrees_advance advances_take fun _ => h.shielded.bind hgoes.shielded fun _ =>
      Agrees.refl _
  · exact Agrees.refl _
  · exact Agrees.refl _

theorem agrees_unary : Agrees (bound + 1) (unary expr) (unary expr') := by
  refine agrees_bind goes_kind? fun kind? => ?_
  cases kind?.bind unaryOp? with
  | none => exact agrees_primary h hgoes
  | some op =>
    refine agrees_bind advances_take.goes fun _ => (agrees_primary h hgoes).bind_pure _

omit h hgoes in
theorem agrees_leftGrouped {operand operand' : Parser ConstExpr} (h : Agrees bound operand operand')
    (hadvances : Advances unreadCourse operand) (levels : List (List BinaryOp)) :
    Agrees bound (leftGrouped operand levels) (leftGrouped operand' levels) := by
  induction levels with
  | nil => exact h
  | cons ops tighter ih =>
    have hgoes := (advances_leftGrouped hadvances tighter).goes
    refine ih.bind hgoes fun first =>
      Agrees.bind_pure (Agrees.many ?_ (leads_nextOperand hgoes ops).goes) _
    refine agrees_bind (leads_operator? ops).goes fun op? => ?_
    cases op? with
    | none => exact Agrees.refl _
    | some op => exact ih.bind_pure _

end Expressions

theorem descends_expressionRound : Descends expressionRound where
  goes _ h i := (advances_expressionRound (h ()) i).goes
  agrees _ _ _ hgoes h _ :=
    agrees_leftGrouped (agrees_unary (h ()) (hgoes ())) (advances_unary (hgoes ())) _

/-! ## Properties and modifiers -/

theorem descends_propertyRound : Descends propertyRound where
  goes _ := goes_propertyRound
  agrees _ _ _ _ h before := by
    refine agrees_bind_ite (leads_acceptPunct _) (Agrees.refl _) ?_
    refine agrees_advance (advances_identifier _) fun key =>
      agrees_bind goes_propertyValue? fun value => ?_
    exact agrees_unless (agrees_bind (leads_acceptPunct _).goes fun _ => agrees_ite (h _)
      (Agrees.refl _))

theorem descends_leadRound : Descends leadRound where
  goes _ := goes_leadRound
  agrees _ _ _ _ h l := by
    refine agrees_bind (goes_isNext _) fun _ => agrees_ite ?_ ?_
    · exact agrees_advance (advances_propertyList _) fun _ => h _
    refine agrees_bind goes_kind? fun kind? => ?_
    cases kind?.bind modifier? with
    | none => exact Agrees.refl _
    | some m => exact agrees_unless (agrees_advance advances_take fun _ => h _)

/-! ## Types -/

theorem agrees_sequenceType {simple simple' : Parser TypeSpec} (h : Agrees bound simple simple')
    (hgoes : Goes unreadCourse simple) :
    Agrees bound (sequenceType simple) (sequenceType simple') :=
  agrees_bind (advances_expectPunct _ _).goes fun _ => agrees_bind goes_enterAngle fun _ =>
    h.bind hgoes fun _ => Agrees.refl _

theorem descends_simpleRound : Descends simpleRound where
  goes _ h i := (advances_simpleRound (h ()) i).goes
  agrees _ _ _ hgoes h _ := by
    refine agrees_bind goes_peek fun t => ?_
    split
    · exact Agrees.refl _
    · exact Agrees.refl _
    · exact Agrees.refl _
    · exact Agrees.refl _
    · exact agrees_advance advances_take fun _ => agrees_sequenceType (h ()) (hgoes ())
    · exact Agrees.refl _
    · exact Agrees.refl _
    · exact Agrees.refl _
    · exact Agrees.refl _

section Types

variable {type type' : Parser TypeSpec} (h : Agrees bound type type')
    (hgoes : Goes unreadCourse type)

include h hgoes

theorem agrees_fields : Agrees bound (fields type) (fields type') := by
  refine Agrees.manyUntil ?_ (advances_field hgoes).goes _
  exact agrees_bind goes_lead fun l => h.bind hgoes fun _ => Agrees.refl _

theorem agrees_structType (properties : List Property) :
    Agrees (bound + 1) (structType type properties) (structType type' properties) :=
  agrees_advance (advances_expectKeyword (by decide) _) fun _ =>
    agrees_bind goes_identifier? fun _ =>
    agrees_bind (advances_expectPunct _ _).goes fun _ => (agrees_fields h hgoes).bind_pure _

theorem agrees_unionCase : Agrees bound (unionCase type) (unionCase type') :=
  agrees_bind goes_caseLabels fun _ => h.bind hgoes fun _ => Agrees.refl _

theorem agrees_unionType (properties : List Property) :
    Agrees (bound + 1) (unionType type properties) (unionType type' properties) := by
  have hcase := agrees_unionCase h hgoes
  have hadvances := advances_unionCase hgoes
  refine agrees_advance (advances_expectKeyword (by decide) _) fun _ => ?_
  refine agrees_bind goes_identifier? fun _ =>
    agrees_bind (advances_expectKeyword (by decide) _).goes fun _ => ?_
  refine agrees_bind (advances_expectPunct _ _).goes fun _ =>
    agrees_bind advances_selector.goes fun _ => ?_
  refine agrees_bind (advances_expectPunct _ _).goes fun _ => ?_
  refine agrees_bind (advances_expectPunct _ _).goes fun _ =>
    hcase.bind hadvances.goes fun first => ?_
  exact (hcase.manyUntil hadvances.goes _).bind_pure _

theorem agrees_constructed? (properties : List Property) :
    Agrees (bound + 1) (constructed? type properties) (constructed? type' properties) := by
  refine agrees_bind goes_kind? fun kind? => ?_
  split
  · exact (agrees_structType h hgoes properties).bind_pure _
  · exact (agrees_unionType h hgoes properties).bind_pure _
  · exact Agrees.refl _
  · exact Agrees.refl _

end Types

theorem descends_typeRound : Descends typeRound where
  goes _ h i := (advances_typeRound (h ()) i).goes
  agrees _ _ _ hgoes h _ :=
    (agrees_constructed? (h ()) (hgoes ()) []).bind (leads_constructed? (hgoes ()) []).goes
      fun _ => Agrees.refl _

/-! ## Attributes and parameters -/

theorem goes_isWord {C : Course} (word : Text) : Goes C (isWord word) :=
  goes_peek?.bind fun _ => goes_pure _

theorem descends_clauseRound : Descends clauseRound where
  goes _ := goes_clauseRound
  agrees _ _ _ _ h a := by
    refine agrees_bind (goes_isWord _) fun getter => agrees_bind (goes_isWord _) fun setter => ?_
    refine agrees_ite (agrees_advance advances_take fun _ => ?_) (Agrees.refl _)
    refine agrees_bind (advances_expectKeyword (by decide) _).goes fun _ => ?_
    exact agrees_bind advances_raisesList.goes fun names => agrees_ite (h _) (h _)

theorem goes_addDirections {C : Course} (before ds : List Direction) :
    Goes C (addDirections before ds) := by
  intro s directions u hrun
  rw [run_addDirections hrun]
  exact C.refl s

theorem descends_parameterLeadRound : Descends parameterLeadRound where
  goes _ := goes_parameterLeadRound
  agrees _ _ _ _ h l := by
    refine agrees_bind (goes_isNext _) fun _ => agrees_ite ?_ ?_
    · exact agrees_advance (advances_propertyList _) fun _ => h _
    refine agrees_bind goes_kind? fun kind? => ?_
    cases kind?.bind directions? with
    | none => exact Agrees.refl _
    | some ds =>
      exact agrees_bind (goes_addDirections _ ds) fun _ => agrees_advance advances_take fun _ => h _

theorem descends_parameterRound : Descends parameterRound where
  goes _ := goes_parameterRound
  agrees _ _ _ _ h before := by
    refine agrees_bind leads_acceptVarargs.goes fun _ => agrees_ite (Agrees.refl _) ?_
    refine agrees_bind goes_parameterLead fun l => agrees_advance advances_parameterType fun r => ?_
    refine agrees_bind (leads_acceptPunct _).goes fun _ => agrees_ite (Agrees.refl _) ?_
    refine agrees_bind (advances_namedParameter l r.1 r.2).goes fun p => ?_
    exact agrees_bind (leads_acceptPunct _).goes fun _ => agrees_ite (h _) (Agrees.refl _)

/-! ## Definitions -/

section Definitions

variable {inner inner' : Parser (Option Definition)} (h : Agrees bound inner inner')
  (hgoes : Goes unreadCourse inner)

include h hgoes

theorem agrees_valueTypeOf (l : Lead) :
    Agrees (bound + 1) (valueTypeOf inner l) (valueTypeOf inner' l) := by
  have hrest (name : Option Text) (base : Option TypeSpec) : Agrees bound
      (do if ← acceptPunct .openBrace then
            let members ← manyUntil .closeBrace inner
            return (⟨name, l.properties, base, some (members.filterMap id)⟩ : ValueType)
          else return ⟨name, l.properties, base, none⟩)
      (do if ← acceptPunct .openBrace then
            let members ← manyUntil .closeBrace inner'
            return ⟨name, l.properties, base, some (members.filterMap id)⟩
          else return ⟨name, l.properties, base, none⟩) :=
    agrees_bind (leads_acceptPunct _).goes fun _ =>
      agrees_ite ((h.manyUntil hgoes _).bind_pure _) (Agrees.refl _)
  refine agrees_advance (advances_expectKeyword (by decide) _) fun _ => ?_
  refine agrees_bind goes_identifier? fun name => agrees_bind (leads_acceptPunct _).goes fun _ => ?_
  refine agrees_bind goes_kind? fun kind? => ?_
  refine agrees_ite (agrees_bind advances_typeSpec.goes.map (hrest name)) ?_
  exact agrees_ite (agrees_bind advances_typeSpec.goes.map (hrest name))
    (agrees_bind (goes_pure none) (hrest name))

theorem agrees_declaration? (l : Lead) :
    Agrees (bound + 1) (declaration? (valueTypeOf inner) l)
      (declaration? (valueTypeOf inner') l) := by
  refine agrees_bind goes_kind? fun kind? => ?_
  split
  · exact Agrees.refl _
  · exact Agrees.refl _
  · exact (agrees_valueTypeOf h hgoes l).bind_pure _
  · exact Agrees.refl _
  · exact Agrees.refl _
  · exact Agrees.refl _

theorem agrees_moduleOf : Agrees (bound + 1) (moduleOf inner) (moduleOf inner') := by
  have hhead : Advances unreadCourse moduleHead := fun _ _ _ => unreadCourse.module
  rw [moduleOf_eq, moduleOf_eq]
  refine agrees_advance hhead fun name => agrees_bind (advances_expectPunct _ _).goes fun _ => ?_
  exact (h.manyUntil hgoes _).bind_pure _

omit h in
theorem goes_moduleOf : Goes unreadCourse (moduleOf inner) :=
  (leads_moduleOf (C := unreadCourse) hgoes).weaken

theorem agrees_afterLead (l : Lead) (t : Token) :
    Agrees (bound + 1) (afterLead inner l t) (afterLead inner' l t) := by
  refine agrees_bind (leads_bare? l).goes fun d?? => ?_
  split
  · exact Agrees.refl _
  refine agrees_ite ?_ (Agrees.refl _)
  split
  · exact (agrees_moduleOf h hgoes).bind (goes_moduleOf hgoes) fun _ => Agrees.refl _
  · exact Agrees.refl _
  · exact Agrees.refl _
  · exact Agrees.refl _

end Definitions

theorem descends_valueMemberRound : Descends valueMemberRound where
  goes _ h i := (advances_valueMemberRound (h ()) i).goes
  agrees _ member member' hgoes h _ := by
    refine agrees_bind goes_lead fun l => agrees_bind goes_peek fun _ => ?_
    refine agrees_bind (leads_bare? l).goes fun d?? => ?_
    split
    · exact Agrees.refl _
    refine agrees_bind (leads_constructed? advances_typeSpec.goes l.properties).goes fun r? => ?_
    split
    · exact Agrees.refl _
    refine (agrees_declaration? (h ()) (hgoes ()) l).bind
      (leads_declaration? l (advances_valueTypeOf (hgoes ()) l)).goes fun d? => ?_
    exact Agrees.refl _

theorem descends_definitionRound : Descends definitionRound where
  goes _ h i := (leads_definitionRound (C := unreadCourse) (h ()) i).weaken
  agrees _ _ _ hgoes h _ :=
    agrees_bind goes_lead fun l => agrees_bind goes_peek fun t =>
      agrees_afterLead (h ()) (hgoes ()) l t

/-! ## The loops of the grammar -/

/-- The items that the grammar repeats. -/
inductive IsItem : {α : Type} → Parser (Option α) → Prop
  | segments : IsItem nextSegment
  | operands (ops : List BinaryOp) (tighter : List (List BinaryOp)) :
    IsItem (nextOperand (leftGrouped (unary constExpr) tighter) ops)
  | strings : IsItem nextString
  | dimensions : IsItem nextDimension
  | labels : IsItem nextLabel
  | scopedNames : IsItem (itemAfterComma scopedName)
  | declarators : IsItem (itemAfterComma declarator)
  | enumerators : IsItem (itemAfterComma (identifier "after ','"))
  | attributeNames : IsItem (itemAfterComma attributeName)
  | contextItems : IsItem (itemAfterComma contextItem)
  | fields : IsItem (itemUntil .closeBrace (field typeSpec))
  | unionCases : IsItem (itemUntil .closeBrace (unionCase typeSpec))
  | valueMembers : IsItem (itemUntil .closeBrace valueMember)
  | interfaceMembers : IsItem (itemUntil .closeBrace interfaceMember)
  | moduleDefinitions : IsItem (itemUntil .closeBrace definition)
  | definitions : IsItem nextDefinition

/-- The loops of the grammar, and their rounds. -/
inductive IsLoop : {ι α : Type} → (ι → Parser α) → ((ι → Parser α) → ι → Parser α) → Prop
  | many {α : Type} {item : Parser (Option α)} (h : IsItem item) :
    IsLoop (fun _ : Unit => many item) (manyRound item)
  | expressions : IsLoop (fun _ => constExpr) expressionRound
  | properties : IsLoop propertiesAfter propertyRound
  | leads : IsLoop (recurse leadRound) leadRound
  | simpleTypes : IsLoop (fun _ => simpleType) simpleRound
  | types : IsLoop (fun _ => typeSpec) typeRound
  | clauses : IsLoop (recurse clauseRound) clauseRound
  | parameterLeads : IsLoop (recurse parameterLeadRound) parameterLeadRound
  | parameters : IsLoop parametersAfter parameterRound
  | valueMembers : IsLoop (fun _ => valueMember) valueMemberRound
  | definitions : IsLoop (fun _ => definition) definitionRound

theorem leads_itemAfterComma {item : Parser α} (h : Advances unreadCourse item) :
    Leads unreadCourse Option.isSome (fun _ => []) (itemAfterComma item) :=
  (leads_acceptPunct _).bind_ite (h.goes.bind fun a => goes_pure (some a)) (leads_pure rfl rfl)

theorem leads_itemUntil {item : Parser α} (h : Advances unreadCourse item) (close : Punct) :
    Leads unreadCourse Option.isSome (fun _ => []) (itemUntil close item) := by
  refine (leads_acceptPunct close).goes.bind fun b => leads_ite (fun _ => leads_pure rfl rfl)
    fun _ => ?_
  exact h.bind fun a => goes_pure (some a)

/-- An item is found only where something is read. -/
theorem IsItem.leads {item : Parser (Option α)} (h : IsItem item) :
    Leads unreadCourse Option.isSome (fun _ => []) item := by
  cases h with
  | segments => exact leads_nextSegment
  | operands ops tighter =>
    exact leads_nextOperand (advances_leftGrouped (advances_unary advances_constExpr.goes)
      tighter).goes ops
  | strings => exact leads_nextString
  | dimensions => exact leads_nextDimension
  | labels => exact leads_nextLabel
  | scopedNames => exact leads_itemAfterComma advances_scopedName
  | declarators => exact leads_itemAfterComma advances_declarator
  | enumerators => exact leads_itemAfterComma (advances_identifier _)
  | attributeNames => exact leads_itemAfterComma advances_attributeName
  | contextItems => exact leads_itemAfterComma advances_contextItem
  | fields => exact leads_itemUntil (advances_field advances_typeSpec.goes) _
  | unionCases => exact leads_itemUntil (advances_unionCase advances_typeSpec.goes) _
  | valueMembers => exact leads_itemUntil advances_valueMember _
  | interfaceMembers => exact leads_itemUntil advances_interfaceMember _
  | moduleDefinitions => exact leads_itemUntil (leads_definition (C := unreadCourse)) _
  | definitions => exact leads_nextDefinition (C := unreadCourse)

/-- Every loop is the recursion of its rounds, and these read something before they go on. -/
theorem IsLoop.descends {loop : ι → Parser α} {body : (ι → Parser α) → ι → Parser α}
    (h : IsLoop loop body) :
    loop = recurse body ∧ Descends body := by
  cases h with
  | many h => exact ⟨rfl, descends_manyRound h.leads⟩
  | expressions => exact ⟨rfl, descends_expressionRound⟩
  | properties => exact ⟨rfl, descends_propertyRound⟩
  | leads => exact ⟨rfl, descends_leadRound⟩
  | simpleTypes => exact ⟨rfl, descends_simpleRound⟩
  | types => exact ⟨rfl, descends_typeRound⟩
  | clauses => exact ⟨rfl, descends_clauseRound⟩
  | parameterLeads => exact ⟨rfl, descends_parameterLeadRound⟩
  | parameters => exact ⟨rfl, descends_parameterRound⟩
  | valueMembers => exact ⟨rfl, descends_valueMemberRound⟩
  | definitions => exact ⟨rfl, descends_definitionRound⟩

/-- **Every loop of the grammar ends.** A round that goes on does so where less is left to read,
    whatever the stream is. So the bound on the rounds is never met: a loop does what its round
    does with the loop itself inside, and no other loop does. The lexer leaves less with every
    stretch it reads, an empty one included, and half of a double angle counts as read. -/
theorem IsLoop.terminates {loop : ι → Parser α} {body : (ι → Parser α) → ι → Parser α}
    (h : IsLoop loop body) :
    (∀ i s j t, Asks body loop i s j t → t.unread < s.unread) ∧
      (∀ i s, (loop i).run s = (body loop i).run s) ∧
      (∀ other : ι → Parser α, (∀ i s, (other i).run s = (body other i).run s) → other = loop) ∧
      (∀ l step, Lexer.step? l = some step → step.next.work < l.work) ∧
      ∀ place s t, run (closeAngle place) s = (.ok ⟨⟩, t) → t.unread < s.unread := by
  obtain ⟨rfl, hdescends⟩ := h.descends
  exact ⟨fun _ _ _ _ hasks => hdescends.unread_lt hasks, hdescends.run_recurse,
    fun _ hother => hdescends.eq_recurse hother, fun _ _ => Lexer.work_step_lt,
    fun place s t hrun => advances_closeAngle (C := unreadCourse) place s ⟨⟩ t hrun⟩

/-- An empty code fragment with a semicolon behind it. -/
theorem many_nextDefinition_terminates :
    ∃ t : TokenStream, t.lexer.rest = "%\x7d;".toList ∧
      Asks (manyRound nextDefinition) (fun _ => many nextDefinition) ()
        (.ofText .omg "%\x7b%\x7d;".toList) () t ∧
      t.unread < (TokenStream.ofText .omg "%\x7b%\x7d;".toList).unread := by
  have hasks : Asks (manyRound nextDefinition) (fun _ => many nextDefinition) ()
      (.ofText .omg "%\x7b%\x7d;".toList) ()
      (run nextDefinition (.ofText .omg "%\x7b%\x7d;".toList)).2 := by
    refine ⟨fun _ => do
      if (← get) = (run nextDefinition (.ofText .omg "%\x7b%\x7d;".toList)).2 then failAtEnd
      many nextDefinition, fun k u hu => ?_, by decide +kernel⟩
    have hne : u ≠ (run nextDefinition (.ofText .omg "%\x7b%\x7d;".toList)).2 :=
      hu.resolve_left fun h => h rfl
    rw [run_bind, run_get]
    dsimp only
    rw [if_neg hne]
  exact ⟨_, by decide +kernel, hasks, (IsLoop.many .definitions).terminates.1 _ _ _ _ hasks⟩

end Parser

end IdlFrontend
