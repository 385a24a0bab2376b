import IdlFrontend.Grammar.Type
import IdlFrontend.Proofs.Reading.ConstExpr

/-!
# Reading property lists

A property list is written in its brackets, and the lexer reads what is between them in a mode of
its own. The keys are what the mode takes for identifiers, so keywords can be keys as well. In that
mode no word is a boolean literal.

Results:

* `reads_propertyList`: the words of properties with distinct keys are read as the properties.
* `reads_lead`: also behind modifiers.
* `writable_propertyWords`: the words of such a list can be written down.
-/

namespace IdlFrontend

/-! ## Words -/

/-- The words of the value of a property, behind its key. -/
def PropertyValue.words : PropertyValue → List Word
  | .args text => [.propertyArgs text]
  | .word name => [.punct .equal, .identifier name]
  | .call name text => [.punct .equal, .identifier name, .propertyArgs text]
  | .literal v => [.punct .equal, v.word]

/-- The words of a property. -/
def Property.words (p : Property) : List Word :=
  .identifier p.key :: p.value.elim [] PropertyValue.words

/-- The words of a property list. Without properties there is none. -/
def propertyWords : List Property → List Word
  | [] => []
  | ps => .openProperties :: (separated .comma Property.words ps ++ [.punct .closeBracket])

/-- The keyword that a modifier is written as. -/
def Modifier.keyword : Modifier → Keyword
  | .oneway => .oneway
  | .readonly => .readonly

/-- The words that stand in front of a declaration, modifiers first. -/
def Lead.words (l : Lead) : List Word :=
  l.modifiers.map (fun m => .keyword m.keyword) ++ propertyWords l.properties

/-- The words of the property are tokens of their kinds in a property list. -/
def Property.IsWritable (d : Dialect) (p : Property) : Prop :=
  ∀ w ∈ p.words, IsToken d .properties w.kind w.text

instance (d : Dialect) (p : Property) : Decidable (p.IsWritable d) :=
  inferInstanceAs (Decidable (∀ _ ∈ _, _))

/-- The properties can be written down, and no two have the same key. -/
structure ProperProperties (d : Dialect) (ps : List Property) : Prop where
  writable : ∀ p ∈ ps, p.IsWritable d
  distinct : (ps.map Property.key).Nodup

variable {d : Dialect} {n : Nat} {ws us : List Word} {l : Lexer} {p : Property}
    {ps before : List Property}

namespace Parser

/-! ## Properties -/

/-- Behind an item of a list a comma comes next, or the end of the list. -/
inductive EndsItem (close : Punct) : List Word → Prop
  | comma (us : List Word) : EndsItem close (.punct .comma :: us)
  | close (us : List Word) : EndsItem close (.punct close :: us)

theorem EndsItem.avoids (h : EndsItem .closeBracket us) {kind : TokenKind}
    (hkind : kind ∈ [.propertyArgs, .punct .equal]) : Place.Avoids (· = kind) ⟨n, us, l⟩ := by
  simp only [List.mem_cons, List.not_mem_nil, or_false] at hkind
  cases h <;> rcases hkind with rfl | rfl <;> exact Place.avoids_word (by rintro ⟨⟩) (by rintro ⟨⟩)

theorem text_of_word_propertyArgs {t : Token} {text : Text} (h : t.word = .propertyArgs text) :
    parenthesizedBody t.text = text := by
  obtain ⟨kind, text', line⟩ := t
  cases kind <;> cases h
  rfl

/-- Raw text between parentheses is read as it is, with whatever is made of it. -/
theorem reads_propertyArgs {α : Type} (f : Text → α) (text : Text) :
    Reads (do return f (parenthesizedBody (← take).text)) ⟨n, .propertyArgs text :: us, l⟩ (f text)
      ⟨n, us, l⟩ :=
  (finds_take (.propertyArgs text) (by rintro ⟨⟩) (by rintro ⟨⟩)).bind fun _ ht =>
    reads_pure_of_eq (congrArg f (text_of_word_propertyArgs ht)) _

theorem reads_propertyValue?_args (text : Text) :
    Reads propertyValue? ⟨n, .propertyArgs text :: us, l⟩ (some (.args text)) ⟨n, us, l⟩ :=
  (reads_isNext_true (.propertyArgs text) (by rintro ⟨⟩)).bind
    (reads_propertyArgs (some ∘ PropertyValue.args) text)

theorem reads_propertyValue? (value : Option PropertyValue) (hend : EndsItem .closeBracket us) :
    Reads propertyValue? ⟨n, value.elim [] PropertyValue.words ++ us, l⟩ value ⟨n, us, l⟩ := by
  cases value with
  | none =>
    refine Reads.bind (reads_isNext_false (hend.avoids (by decide))) ?_
    exact Reads.bind (reads_accept_false (hend.avoids (by decide))) (reads_pure none _)
  | some value =>
    cases value with
    | args text => exact reads_propertyValue?_args text
    | word name =>
      refine Reads.bind (reads_isNext_false (Place.avoids_word (by rintro ⟨⟩) (by rintro ⟨⟩))) ?_
      refine (reads_acceptPunct (by decide)).bind ?_
      refine (finds_take (.identifier name) (by rintro ⟨⟩) (by rintro ⟨⟩)).bind fun t ht => ?_
      rw [if_pos (by rw [← t.kind_word, ht]; rfl)]
      refine Reads.bind (reads_isNext_false (hend.avoids (by decide))) ?_
      rw [text_of_word_identifier ht]
      exact reads_pure _ _
    | call name text =>
      refine Reads.bind (reads_isNext_false (Place.avoids_word (by rintro ⟨⟩) (by rintro ⟨⟩))) ?_
      refine (reads_acceptPunct (by decide)).bind ?_
      refine (finds_take (.identifier name) (by rintro ⟨⟩) (by rintro ⟨⟩)).bind fun t ht => ?_
      rw [if_pos (by rw [← t.kind_word, ht]; rfl)]
      refine (reads_isNext_true (.propertyArgs text) (by rintro ⟨⟩)).bind ?_
      rw [text_of_word_identifier ht]
      exact reads_propertyArgs (some ∘ PropertyValue.call name) text
    | literal v =>
      refine Reads.bind (reads_isNext_false (Place.avoids_word (by rintro ⟨⟩) (by rintro ⟨⟩))) ?_
      refine (reads_acceptPunct (by decide)).bind ?_
      refine (finds_take v.word v.word_ne.1 v.word_ne.2).bind fun t ht => ?_
      have hkind : t.kind ≠ .identifier := by
        rw [← t.kind_word, ht]
        cases v with
        | boolean b => cases b <;> rintro ⟨⟩
        | _ => rintro ⟨⟩
      rw [if_neg hkind, literal?_of_word ht]
      exact reads_pure _ _

theorem reads_propertyRound {more : List Property → Parser (List Property)} {Q : Place}
    (hkey : p.key ∉ before.map Property.key) (hend : EndsItem .closeBracket us)
    (h : Reads (propertyNext more (before ++ [p])) ⟨n, us, l⟩ ps Q) :
    Reads (propertyRound more before) ⟨n, p.words ++ us, l⟩ ps Q := by
  refine Reads.bind (reads_accept_false (Place.avoids_word (by rintro ⟨⟩) (by rintro ⟨⟩))) ?_
  refine (reads_identifier p.key _).bind (Reads.bind (reads_propertyValue? p.value hend) ?_)
  rw [if_neg (by simpa using hkey)]
  exact h

/-- Properties up to the end of their list, of which no two have the same key. -/
theorem reads_propertiesAfter (hkeys : ((before ++ p :: ps).map Property.key).Nodup) :
    Reads (propertiesAfter before)
      ⟨n, separated .comma Property.words (p :: ps) ++ .punct .closeBracket :: us, l⟩
      (before ++ p :: ps) ⟨n, us, l⟩ := by
  have hkey {p : Property} {before ps : List Property}
      (h : ((before ++ p :: ps).map Property.key).Nodup) : p.key ∉ before.map Property.key := by
    rw [List.map_append, List.nodup_append] at h
    exact fun hmem => h.2.2 p.key hmem p.key List.mem_cons_self rfl
  refine Rounds.reads_recurse ?_
  show Rounds propertyRound _ _ _ _
  induction ps generalizing p before with
  | nil =>
    rw [separated_singleton]
    refine .last fun more => reads_propertyRound (hkey hkeys) (.close us) ?_
    refine Reads.bind (reads_accept_false (Place.avoids_word (by rintro ⟨⟩) (by rintro ⟨⟩))) ?_
    exact (reads_expectPunct _ (by decide)).bind (reads_pure _ _)
  | cons q ps ih =>
    have hp := hkey hkeys
    rw [List.append_cons before p (q :: ps)] at hkeys ⊢
    rw [separated_cons_cons, List.append_assoc, List.cons_append]
    refine .next (Place.size_lt_append_cons p.words (.punct .comma) _ l) (fun more hmore => ?_)
      (ih hkeys)
    refine reads_propertyRound hp (.comma _) ?_
    exact (reads_acceptPunct (by decide)).bind hmore

theorem reads_propertyList (hne : ps ≠ []) (hkeys : ((before ++ ps).map Property.key).Nodup) :
    Reads (propertyList before) ⟨n, propertyWords ps ++ us, l⟩ (before ++ ps) ⟨n, us, l⟩ := by
  obtain ⟨p, ps, rfl⟩ := List.exists_cons_of_ne_nil hne
  rw [propertyWords, List.cons_append, List.append_assoc]
  · exact Finds.openProperties _ (reads_propertiesAfter hkeys)
  · rintro ⟨⟩

/-! ## Leads -/

/-- What comes next is no property list, and nothing that `f` accepts in front of a declaration. -/
def EndsLead {α : Type} (f : TokenKind → Option α) (P : Place) : Prop :=
  P.Avoids fun kind => kind = .punct .openBracket ∨ (f kind).isSome

theorem EndsLead.bind_kind {α : Type} {f : TokenKind → Option α} {P : Place} (h : EndsLead f P)
    {t? : Option Token} (hsees : P.Sees t?) : (t?.map Token.kind).bind f = none := by
  cases t? with
  | none => rfl
  | some t =>
    have hnot : ¬(f t.kind).isSome := fun hsome => h.not_sees t hsees (.inr hsome)
    exact Option.not_isSome_iff_eq_none.1 hnot

theorem EndsLead.avoids {α : Type} {f : TokenKind → Option α} {P : Place} (h : EndsLead f P) :
    P.Avoids (· = .punct .openBracket) :=
  Place.Avoids.mono h fun _ hkind => .inl hkind

/-- The bracket of a property list is seen before the list is read. -/
theorem reads_isPunct_propertyList {α : Type} {q : Parser α} {f : List Property → Parser α}
    {Q : Place} {a : α} (hne : ps ≠ []) (hkeys : (ps.map Property.key).Nodup)
    (h : Reads (f ps) ⟨n, us, l⟩ a Q) :
    Reads (do if ← isPunct .openBracket then f (← propertyList []) else q)
      ⟨n, propertyWords ps ++ us, l⟩ a Q := by
  have hlist : Reads (propertyList []) ⟨n, propertyWords ps ++ us, l⟩ ps ⟨n, us, l⟩ :=
    reads_propertyList hne hkeys
  obtain ⟨p, ps, rfl⟩ := List.exists_cons_of_ne_nil hne
  exact (reads_isNext_true .openProperties (by rintro ⟨⟩)).bind (hlist.bind h)

/-- Words of which none is repeated, and then properties. The state `st as ps` of the recursion has
    both collected. -/
theorem rounds_lead {α σ : Type} {body : (σ → Parser σ) → σ → Parser σ}
    (st : List α → List Property → σ) {k : α → Keyword} {as : List α}
    (hend : ∀ more s, Reads (body more s) ⟨n, us, l⟩ s ⟨n, us, l⟩)
    (hproperties : ps ≠ [] → ∀ more s, Reads (more (st as ps)) ⟨n, us, l⟩ s ⟨n, us, l⟩ →
      Reads (body more (st as [])) ⟨n, propertyWords ps ++ us, l⟩ s ⟨n, us, l⟩)
    (hword : ∀ more s before a vs, a ∉ before →
      Reads (more (st (before ++ [a]) [])) ⟨n, vs, l⟩ s ⟨n, us, l⟩ →
      Reads (body more (st before [])) ⟨n, .keyword (k a) :: vs, l⟩ s ⟨n, us, l⟩)
    (has : as.Nodup) :
    Rounds body ⟨n, as.map (fun a => .keyword (k a)) ++ (propertyWords ps ++ us), l⟩ (st [] [])
      (st as ps) ⟨n, us, l⟩ := by
  have hrounds (before rest : List α) (heq : before ++ rest = as) :
      Rounds body ⟨n, rest.map (fun a => .keyword (k a)) ++ (propertyWords ps ++ us), l⟩
        (st before []) (st as ps) ⟨n, us, l⟩ := by
    induction rest generalizing before with
    | nil =>
      rw [List.append_nil] at heq
      subst heq
      cases ps with
      | nil => exact .last fun more => hend more _
      | cons p ps =>
        have hsize : Place.size ⟨n, us, l⟩ < Place.size ⟨n, propertyWords (p :: ps) ++ us, l⟩ :=
          Place.size_lt (List.cons_ne_nil _ _) us l
        refine .next (j := st before (p :: ps)) hsize (fun more hmore => ?_)
          (.last fun more => hend more _)
        exact hproperties (by rintro ⟨⟩) more _ hmore
    | cons a rest ih =>
      have hfresh : a ∉ before := by
        rw [← heq, List.nodup_append] at has
        exact fun hmem => has.2.2 a hmem a List.mem_cons_self rfl
      rw [List.append_cons] at heq
      exact .next (Place.size_lt_append_cons [] (.keyword (k a)) _ l)
        (fun more hmore => hword more _ before a _ hfresh hmore) (ih _ heq)
  exact hrounds [] as rfl

theorem reads_leadRound_end (hend : EndsLead modifier? ⟨n, us, l⟩) (more : Lead → Parser Lead)
    (m : Lead) :
    Reads (leadRound more m) ⟨n, us, l⟩ m ⟨n, us, l⟩ := by
  refine Reads.bind (reads_isNext_false hend.avoids) ?_
  refine (finds_kind? hend.canLook).bind fun _ ⟨t?, hsees, hkind⟩ => ?_
  rw [hkind, hend.bind_kind hsees]
  exact reads_pure m _

/-- Modifiers, of which none is repeated, and then properties. -/
theorem reads_lead {m : Lead} (hmodifiers : m.modifiers.Nodup)
    (hkeys : (m.properties.map Property.key).Nodup) (hend : EndsLead modifier? ⟨n, us, l⟩) :
    Reads lead ⟨n, m.words ++ us, l⟩ m ⟨n, us, l⟩ := by
  rw [Lead.words, List.append_assoc]
  refine (rounds_lead Lead.mk (reads_leadRound_end hend) (fun hne more s hmore => ?_)
    (fun more s before a vs hfresh hmore => ?_) hmodifiers).reads_recurse
  · exact reads_isPunct_propertyList hne hkeys hmore
  · refine Reads.bind (reads_isNext_false (Place.avoids_word (by rintro ⟨⟩) (by rintro ⟨⟩))) ?_
    refine Reads.bind (reads_kind? (by rintro ⟨⟩)) ?_
    have hkind : (some (Word.keyword a.keyword).kind).bind modifier? = some a := by cases a <;> rfl
    rw [hkind]
    dsimp only
    rw [if_neg (by simpa using hfresh)]
    exact (finds_take (.keyword a.keyword) (by rintro ⟨⟩) (by rintro ⟨⟩)).bind fun _ _ => hmore

end Parser

/-! ## Texts -/

theorem Property.words_plain : ∀ w ∈ p.words,
    w ∉ [.closing, .openProperties, .keyword .native, .punct .closeBracket] := by
  have hliteral (v : Literal) :
      v.word ∉ [.closing, .openProperties, .keyword .native, .punct .closeBracket] := by
    cases v with
    | boolean b => cases b <;> simp [Literal.word]
    | _ => simp [Literal.word]
  obtain ⟨key, value⟩ := p
  cases value with
  | none => simp [words]
  | some value =>
    cases value with
    | literal v => simpa [words, PropertyValue.words] using hliteral v
    | _ => simp [words, PropertyValue.words]

theorem Property.IsWritable.writable (hp : p.IsWritable d) :
    Writable d .properties p.words .properties := by
  have hwords (ws : List Word) (hsub : ∀ w ∈ ws, w ∈ p.words) :
      Writable d .properties ws .properties := by
    induction ws with
    | nil => exact .nil _
    | cons w ws ih =>
      rw [List.forall_mem_cons] at hsub
      have hplain := p.words_plain w hsub.1
      refine .token (hp w hsub.1) (fun hmem => hplain ?_) (fun _ hw => hplain ?_) (ih hsub.2)
      · simp only [List.mem_cons, List.not_mem_nil, or_false] at hmem ⊢
        tauto
      · simp [hw]
  exact hwords p.words fun _ hw => hw

theorem isToken_comma (d : Dialect) : IsToken d .properties (.punct .comma) [','] := by
  cases d <;> decide

theorem writable_propertyWords (hps : ∀ p ∈ ps, p.IsWritable d) :
    Writable d .ordinary (propertyWords ps) .ordinary := by
  cases ps with
  | nil => exact .nil _
  | cons p ps =>
    rw [List.forall_mem_cons] at hps
    refine .openProperties (.append ?_ (.closeBracket (.nil _)))
    refine hps.1.writable.append (.flatMap fun q hq => ?_)
    exact .token (isToken_comma d) (by simp) (by decide) (hps.2 q hq).writable

end IdlFrontend
