import Mathlib.Data.List.Nodup
import IdlFrontend.Proofs.Reading.PropertyText

/-!
# Several property lists

In front of a declaration there can be several property lists. Their properties are collected
one by one, and the first key that is there already is an error, whichever list it stands in.
Nothing is looked at behind a list before the mode of the lexer is changed back.

Results:

* `Property.collect_of_nodup`, `Property.collect_of_repeated`: what is collected, and what is
  reported.
* `Answers.bind`: parsers one after the other, of which one may fail.
* `answers_lead`: property lists are read as what is collected of them.
* `Listed.propertyLists`: the words of property lists can be written without white space.
-/

namespace IdlFrontend

/-! ## Lists as they are written -/

/-- A property list as it is written. There may be a comma behind the last property. -/
structure PropertyList where
  properties : List Property
  endsInComma : Bool := false
deriving DecidableEq, Repr

/-- The words of properties up to the closing bracket. -/
def Property.itemWords (endsInComma : Bool) : List Property → List Word
  | [] => [.punct .closeBracket]
  | p :: ps => p.words ++
    if ps.isEmpty && !endsInComma then [.punct .closeBracket] else .punct .comma ::
      itemWords endsInComma ps

/-- The words of a property list, its brackets included. -/
def PropertyList.words (g : PropertyList) : List Word :=
  .openProperties :: Property.itemWords g.endsInComma g.properties

/-- The literal can be written in a property list. The words for truth values are names there. -/
def Literal.IsItem : Literal → Prop
  | .boolean _ => False
  | v => v.word.IsItem

/-- The names in the value are names, its arguments hold no closing parenthesis, and its literal
    is one. -/
def PropertyValue.IsSpellable : PropertyValue → Prop
  | .args text => ')' ∉ text
  | .word name => IsName name
  | .call name text => IsName name ∧ ')' ∉ text
  | .literal v => v.IsItem

/-- The key of the property is a name, possibly a keyword, and its value can be written. -/
def Property.IsSpellable (p : Property) : Prop := IsName p.key ∧ ∀ v ∈ p.value, v.IsSpellable

/-- The properties behind others, unless a key is repeated. -/
def Property.collect (before : List Property) : List Property → Except SyntaxFault (List Property)
  | [] => .ok before
  | p :: ps =>
    if before.any (·.key == p.key) then .error (.repeatedProperty p.key) else collect
      (before ++ [p]) ps

namespace Property

variable {before ps qs all : List Property} {fault : SyntaxFault}

theorem collect_append (before ps qs : List Property) :
    collect before (ps ++ qs) = collect before ps >>= fun all => collect all qs := by
  induction ps generalizing before with
  | nil => rfl
  | cons p ps ih =>
    rw [List.cons_append, collect, collect]
    split
    · rfl
    · exact ih _

/-- Properties with different keys are all collected. -/
theorem collect_of_nodup (h : ((before ++ ps).map key).Nodup) :
    collect before ps = .ok (before ++ ps) := by
  induction ps generalizing before with
  | nil => rw [collect, List.append_nil]
  | cons p ps ih =>
    have hfresh : ¬before.any (·.key == p.key) := by
      intro hmem
      rw [List.map_append, List.nodup_append] at h
      have hkey : p.key ∈ before.map key := by simpa using hmem
      exact h.2.2 p.key hkey p.key List.mem_cons_self rfl
    rw [List.append_cons] at h ⊢
    rw [collect, if_neg hfresh, ih h]

/-- The first key that is repeated is reported. -/
theorem collect_of_repeated (before : List Property) {p : Property}
    (h : ((before ++ ps).map key).Nodup) (hp : p.key ∈ (before ++ ps).map key)
    (qs : List Property) :
    collect before (ps ++ p :: qs) = .error (.repeatedProperty p.key) := by
  rw [collect_append, collect_of_nodup h]
  show collect (before ++ ps) (p :: qs) = _
  rw [collect, if_pos (by simpa using hp)]

/-- Where keys are repeated, there is a first one. -/
theorem exists_repeated (hps : ¬(ps.map key).Nodup) : ∃ before p after, ps = before ++ p :: after ∧
    (before.map key).Nodup ∧ p.key ∈ before.map key := by
  induction ps using List.reverseRecOn with
  | nil => exact absurd List.nodup_nil hps
  | append_singleton ps p ih =>
    by_cases hnodup : (ps.map key).Nodup
    · refine ⟨ps, p, [], rfl, hnodup, ?_⟩
      by_contra hfresh
      refine hps ?_
      rw [List.map_append, List.nodup_append]
      refine ⟨hnodup, List.nodup_singleton _, fun a ha b hb => ?_⟩
      rw [List.map_singleton, List.mem_singleton] at hb
      rintro rfl
      exact hfresh (hb ▸ ha)
    · obtain ⟨before, q, after, rfl, hbefore, hq⟩ := ih hnodup
      exact ⟨before, q, after ++ [p], by rw [List.append_assoc, List.cons_append], hbefore, hq⟩

end Property

/-! ## Words and texts -/

/-- No name or number comes first. -/
def StartsApart (ws : List Word) : Prop := ∀ v ∈ ws.head?, v.isBare = false

variable {ws : List Word} {p : Property} {ps : List Property} {g : PropertyList}

theorem startsApart_cons {w : Word} (hw : w.isBare = false) (ws : List Word) :
    StartsApart (w :: ws) := by
  rintro v ⟨⟩
  exact hw

theorem Listed.punct {q : Punct} (hq : q = .equal ∨ q = .comma) (h : Listed .properties ws) :
    Listed .properties (.punct q :: ws) :=
  .item hq (by rintro ⟨⟩) h

theorem Listed.args {text : Text} (htext : ')' ∉ text) (h : Listed .properties ws) :
    Listed .properties (.propertyArgs text :: ws) :=
  .item htext (by rintro ⟨⟩) h

theorem Listed.value {value : Option PropertyValue} (hvalue : ∀ v ∈ value, v.IsSpellable)
    (h : Listed .properties ws) (hstart : StartsApart ws) :
    Listed .properties (value.elim [] PropertyValue.words ++ ws) ∧
      StartsApart (value.elim [] PropertyValue.words ++ ws) := by
  cases value with
  | none => exact ⟨h, hstart⟩
  | some value =>
    have hv := hvalue value rfl
    cases value with
    | args text => exact ⟨.args hv h, startsApart_cons rfl _⟩
    | word name => exact ⟨.punct (.inl rfl) (.item hv (fun _ => hstart) h), startsApart_cons rfl _⟩
    | call name text =>
      refine ⟨.punct (.inl rfl) (.item hv.1 (fun _ => ?_) (.args hv.2 h)), startsApart_cons rfl _⟩
      exact startsApart_cons rfl _
    | literal v =>
      refine ⟨.punct (.inl rfl) (.item ?_ (fun _ => hstart) h), startsApart_cons rfl _⟩
      cases v with
      | boolean => exact False.elim hv
      | integer | floating | fixedPoint | string | character => exact hv

theorem Listed.property (hp : p.IsSpellable) (h : Listed .properties ws) (hstart : StartsApart ws) :
    Listed .properties (p.words ++ ws) := by
  obtain ⟨hvalue, hapart⟩ := Listed.value hp.2 h hstart
  exact .item hp.1 (fun _ => hapart) hvalue

theorem Listed.items (hps : ∀ p ∈ ps, p.IsSpellable) (endsInComma : Bool)
    (h : Listed .ordinary ws) :
    Listed .properties (Property.itemWords endsInComma ps ++ ws) := by
  induction ps with
  | nil => exact .closeBracket h
  | cons p ps ih =>
    rw [List.forall_mem_cons] at hps
    rw [Property.itemWords, List.append_assoc]
    refine Listed.property hps.1 ?_ ?_
    · split
      · exact .closeBracket h
      · exact .punct (.inr rfl) (ih hps.2)
    · split <;> exact startsApart_cons rfl _

/-- The words of property lists can be written one after the other. -/
theorem Listed.propertyLists {gs : List PropertyList}
    (hgs : ∀ g ∈ gs, ∀ p ∈ g.properties, p.IsSpellable) :
    Listed .ordinary (gs.flatMap PropertyList.words) := by
  induction gs with
  | nil => exact .nil
  | cons g gs ih =>
    rw [List.forall_mem_cons] at hgs
    rw [List.flatMap_cons]
    exact .openBracket (.items hgs.1 g.endsInComma (ih hgs.2))

namespace Parser

/-! ## Answers -/

variable {α β ι : Type} {P Q R : Place} {a : α} {r : Except SyntaxFault α} {n : Nat}
    {us : List Word} {l : Lexer}

/-- From the place `P` the parser reads a result and stands at `Q`, or it fails for the given
    cause. -/
def Answers (p : Parser α) (P : Place) (r : Except SyntaxFault α) (Q : Place) : Prop :=
  match r with
  | .ok a => Reads p P a Q
  | .error fault => ∀ s : TokenStream, s.At P →
      ∃ line s', run p s = (.error (.grammar ⟨fault, some line⟩), s')

theorem Reads.answers_bind {p : Parser α} {f : α → Parser β} {r : Except SyntaxFault β}
    (hp : Reads p P a Q) (hf : Answers (f a) Q r R) : Answers (p >>= f) P r R := by
  cases r with
  | ok b => exact Reads.bind hp hf
  | error fault =>
    intro s hs
    obtain ⟨a, t, hrun, rfl, ht⟩ := hp s hs
    obtain ⟨line, s', hfail⟩ := hf t ht
    exact ⟨line, s', by rw [run_bind, hrun]; exact hfail⟩

/-- Parsers one after the other. If the first one fails, so do both. -/
theorem Answers.bind {p : Parser α} {f : α → Parser β} {g : α → Except SyntaxFault β}
    (hp : Answers p P r Q) (hf : ∀ a, r = .ok a → Answers (f a) Q (g a) R) :
    Answers (p >>= f) P (r >>= g) R := by
  cases r with
  | ok a => exact Reads.answers_bind hp (hf a rfl)
  | error fault =>
    intro s hs
    obtain ⟨line, s', hrun⟩ := hp s hs
    exact ⟨line, s', by rw [run_bind, hrun]⟩

theorem answers_fail_bind (fault : SyntaxFault) (f : α → Parser β) (P Q : Place) :
    Answers (fail fault >>= f) P (.error fault) Q :=
  fun s _ => ⟨s.line, s, run_bind (fail fault) f s⟩

theorem answers_recurse {body : (ι → Parser α) → ι → Parser α} {i : ι}
    (h : ∀ depth, P.size < depth → Answers (unfold body depth i) P r Q) :
    Answers (recurse body i) P r Q := by
  cases r with
  | ok a => exact finds_recurse h
  | error fault => exact fun s hs => h _ (Nat.lt_succ_of_le (Place.size_le_unread hs)) s hs

theorem Answers.openProperties {p : Parser α} (place : String) (hp : Answers p ⟨n, us, l⟩ r Q) :
    Answers (do
        expectPunct .openBracket place
        modify fun s => { s with lexer := s.lexer.push .properties }
        p)
      ⟨n, .openProperties :: us, l⟩ r Q := by
  cases r with
  | ok a => exact Finds.openProperties place hp
  | error fault =>
    intro s hs
    obtain ⟨s', hs', hrun⟩ := exists_run_openProperties place hs p
    rw [hrun]
    exact hp s' hs'

/-! ## Lists -/

/-- The properties of one list, behind those of the lists in front of it. -/
theorem answers_propertiesAfter (endsInComma : Bool) (before ps : List Property) (n : Nat)
    (us : List Word) (l : Lexer) :
    Answers (propertiesAfter before) ⟨n, Property.itemWords endsInComma ps ++ us, l⟩
      (Property.collect before ps) ⟨n, us, l⟩ := by
  refine answers_recurse fun depth hdepth => ?_
  show Answers (unfold propertyRound depth before) _ _ _
  induction ps generalizing before depth with
  | nil =>
    obtain ⟨depth, rfl⟩ := Nat.exists_eq_add_one_of_ne_zero (Nat.ne_zero_of_lt hdepth)
    exact (reads_acceptPunct (by decide)).bind (reads_pure before _)
  | cons p ps ih =>
    obtain ⟨depth, rfl⟩ := Nat.exists_eq_add_one_of_ne_zero (Nat.ne_zero_of_lt hdepth)
    rw [Property.itemWords, List.append_assoc] at hdepth ⊢
    rw [Property.collect]
    show Answers (propertyRound (unfold propertyRound depth) before) _ _ _
    refine Reads.answers_bind
      (reads_accept_false (Place.avoids_word (by rintro ⟨⟩) (by rintro ⟨⟩))) ?_
    refine Reads.answers_bind (reads_identifier p.key _)
      (Reads.answers_bind (reads_propertyValue? p.value ?_) ?_)
    · split
      · exact .close _
      · exact .comma _
    · by_cases hkey : before.any (·.key == p.key)
      · rw [if_pos hkey, if_pos hkey]
        exact answers_fail_bind _ _ _ _
      rw [if_neg hkey, if_neg hkey]
      by_cases hlast : (ps.isEmpty && !endsInComma) = true
      · rw [if_pos hlast]
        rw [Bool.and_eq_true, List.isEmpty_iff] at hlast
        rw [hlast.1, Property.collect]
        refine Reads.bind (reads_accept_false (Place.avoids_word (by rintro ⟨⟩) (by rintro ⟨⟩))) ?_
        exact (reads_expectPunct _ (by decide)).bind (reads_pure _ _)
      · rw [if_neg hlast] at hdepth ⊢
        refine Reads.answers_bind (reads_acceptPunct (by decide)) (ih _ depth ?_)
        have hlt := Place.size_lt_append_cons (n := n) (k := n) p.words (.punct .comma)
          (Property.itemWords endsInComma ps ++ us) l
        rw [List.cons_append] at hdepth
        omega

theorem answers_propertyList (g : PropertyList) (before : List Property) (n : Nat) (us : List Word)
    (l : Lexer) :
    Answers (propertyList before) ⟨n, g.words ++ us, l⟩ (Property.collect before g.properties)
      ⟨n, us, l⟩ :=
  Answers.openProperties _ (answers_propertiesAfter g.endsInComma before g.properties n us l)

/-- Property lists up to the declaration. What stands there matters only if no key is repeated. -/
theorem answers_unfold_leadRound {depth : Nat} (gs : List PropertyList) (before : List Property)
    (hdepth : Place.size ⟨n, gs.flatMap PropertyList.words ++ us, l⟩ < depth)
    (hend : ∀ all, Property.collect before (gs.flatMap PropertyList.properties) = .ok all →
      EndsLead modifier? ⟨n, us, l⟩) :
    Answers (unfold leadRound depth ⟨[], before⟩) ⟨n, gs.flatMap PropertyList.words ++ us, l⟩
      ((Property.collect before (gs.flatMap PropertyList.properties)).map (Lead.mk []))
      ⟨n, us, l⟩ := by
  induction gs generalizing before depth with
  | nil =>
    obtain ⟨depth, rfl⟩ := Nat.exists_eq_add_one_of_ne_zero (Nat.ne_zero_of_lt hdepth)
    exact reads_leadRound_end (hend before rfl) _ _
  | cons g gs ih =>
    obtain ⟨depth, rfl⟩ := Nat.exists_eq_add_one_of_ne_zero (Nat.ne_zero_of_lt hdepth)
    rw [List.flatMap_cons, List.append_assoc] at hdepth ⊢
    rw [List.flatMap_cons, Property.collect_append] at hend ⊢
    have hsize := Place.size_lt (n := n) (k := n) (show g.words ≠ [] from List.cons_ne_nil _ _)
      (gs.flatMap PropertyList.words ++ us) l
    have hmore (all : List Property) (hall : Property.collect before g.properties = .ok all) :
        Answers (unfold leadRound depth ⟨[], all⟩) ⟨n, gs.flatMap PropertyList.words ++ us, l⟩
          ((Property.collect all (gs.flatMap PropertyList.properties)).map (Lead.mk []))
          ⟨n, us, l⟩ := by
      rw [hall] at hend
      exact ih all (by omega) hend
    have hlist :=
      (answers_propertyList g before n (gs.flatMap PropertyList.words ++ us) l).bind hmore
    have hresult : (Property.collect before g.properties >>= fun all =>
          Property.collect all (gs.flatMap PropertyList.properties)).map (Lead.mk []) =
        Property.collect before g.properties >>= fun all =>
          (Property.collect all (gs.flatMap PropertyList.properties)).map (Lead.mk []) := by
      cases Property.collect before g.properties <;> rfl
    rw [hresult]
    show Answers (leadRound (unfold leadRound depth) ⟨[], before⟩) _ _ _
    exact Reads.answers_bind (reads_isNext_true .openProperties (by rintro ⟨⟩)) hlist

/-- **Property lists in front of a declaration.** They are read as what is collected of all of
    them. -/
theorem answers_lead (gs : List PropertyList) (n : Nat) (us : List Word) (l : Lexer)
    (hend : ∀ all, Property.collect [] (gs.flatMap PropertyList.properties) = .ok all →
      EndsLead modifier? ⟨n, us, l⟩) :
    Answers lead ⟨n, gs.flatMap PropertyList.words ++ us, l⟩
      ((Property.collect [] (gs.flatMap PropertyList.properties)).map (Lead.mk [])) ⟨n, us, l⟩ :=
  answers_recurse fun _ hdepth => answers_unfold_leadRound gs [] hdepth hend

end Parser

end IdlFrontend
