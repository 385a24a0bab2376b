import IdlFrontend.Proofs.Parser.Append
import IdlFrontend.Proofs.Parser.Course
import IdlFrontend.Proofs.Reading.PropertyLists

/-!
# Property lists in front of an interface

A text begins with an interface. With property lists in front of it the same is found, but the
interface has the properties: behind the closing bracket of the last list the text is read as
from its start. If a key is repeated, nothing behind the lists matters.

Results:

* `exists_run_definitions_of_interface`: the first definition, up to the keyword of the interface.
* `exists_of_run_interfaceFirst`: the same text, with other properties in front of it.
* `Specification.ofText_propertyLists`: what is found of the whole text.
-/

namespace IdlFrontend

variable {d : Dialect} {gap u : Text} {l l' m m' : Lexer} {s s' w : TokenStream}
    {t : Token} {n : Nat}
  {below : List Mode} {ws : List Word} {gs : List PropertyList} {ps : List Property}

/-! ## The keyword -/

/-- The keyword is recognized in the ordinary mode, behind any white space. -/
theorem Lexer.InFrontOf.interfaceKeyword
    (h : l.InFrontOf d (.ordinary :: below) (gap ++ ("interface".toList ++ u))) (hgap : IsSpace gap)
    (hu : ∀ c ∈ u.head?, isWordPart c = false) :
    ∃ line m, l.next = (.ok (some ⟨.keyword .interface, "interface".toList, line⟩), m) ∧
      m.InFrontOf d (.ordinary :: below) u ∧ m.atLineStart = false := by
  have hhead : ("interface".toList ++ u).head? = some 'i' := rfl
  obtain ⟨k, hk, hnext⟩ := h.skipSpace (by decide) hgap fun c hc => by
    rw [hhead] at hc
    obtain rfl := Option.some.inj hc
    decide
  have hkind : Meaning.kind? d "interface".toList .word =
      some (.keyword .interface) := by cases d <;> rfl
  have hword := hk.word (r := ⟨.word, .word, .stay⟩) (by decide) hu (by decide) rfl
    (by decide) hkind (by rintro ⟨⟩)
  refine ⟨_, _, hnext.trans hword, hk.skip, ?_⟩
  show ((k.rest.take "interface".toList.length).getLast?.map isLineEnd).getD _ = false
  rw [hk.rest, List.take_left]
  rfl

/-- In front of the same text, on a line that has begun, the lexers read the same. -/
theorem Lexer.InFrontOf.extends (h : l.InFrontOf d [.ordinary] u)
    (h' : l'.InFrontOf d [.ordinary] u) (hstart : l.atLineStart = l'.atLineStart) :
    l.Extends [] l' := by
  obtain ⟨hmode, hbelow⟩ := List.cons.inj h.modes
  obtain ⟨hmode', hbelow'⟩ := List.cons.inj h'.modes
  refine ⟨⟨h'.dialect.trans h.dialect.symm, hmode'.trans hmode.symm,
    hbelow'.trans hbelow.symm, ?_⟩, ?_,
    hstart.symm, Lexer.lawful_of_ordinary hmode hbelow, nofun, fun hx => absurd rfl hx⟩
  · rw [h.pragmas, h'.pragmas]
  · rw [h.rest, h'.rest, List.append_nil]

namespace Parser

theorem exists_run_peek?_of_next (hs : s.At ⟨n, [], m⟩) (hnext : m.next = (.ok (some t), m')) :
    ∃ s', run peek? s = (.ok (some t), s') ∧ s'.ahead = some t ∧ s'.lexer = m' ∧
      s'.openAngles = n := by
  obtain ⟨t?, s', hrun, hsees, hat, hahead⟩ := run_peek?_of_at hs fun _ => ⟨some t, by rw [hnext]⟩
  obtain rfl : t? = some t := by
    have hsees : m.next.1 = .ok t? := hsees
    rw [hnext] at hsees
    exact (Except.ok.inj hsees).symm
  refine ⟨s', hrun, hahead, ?_, hat.openAngles⟩
  cases hat.supplies with
  | unread hnone =>
    rw [hahead] at hnone
    cases hnone
  | ahead _ hoffers =>
    obtain ⟨_, _, hnil, -⟩ := hoffers.exists_cons
    cases hnil
  | beyond hbeyond =>
    have hlexer : (Except.ok s'.ahead, s'.lexer) = (.ok (some t), m') := hbeyond.symm.trans hnext
    exact (Prod.mk.inj hlexer).2

theorem endsLead_of_next (hnext : m.next = (.ok (some t), m')) (ht : t.kind = .keyword .interface) :
    EndsLead modifier? ⟨n, [], m⟩ := by
  refine ⟨fun _ => ⟨some t, by rw [hnext]⟩, fun t' hsees => ?_⟩
  have hsees : m.next.1 = .ok (some t') := hsees
  rw [hnext] at hsees
  obtain rfl : t = t' := Option.some.inj (Except.ok.inj hsees)
  rw [ht]
  rintro (⟨⟨⟩⟩ | ⟨⟨⟩⟩)

/-! ## The interface -/

/-- An interface that has the properties in front of it. -/
def interfaceDefinition (ps : List Property) : Parser (Option Definition) := do
  ended (.interface (← interface ⟨[], ps⟩))

/-- Such an interface, and the definitions behind it in less than `k` rounds. -/
def interfaceFirst (ps : List Property) (k : Nat) : Parser (List (Option Definition)) := do
  let a ← interfaceDefinition ps
  (a :: ·) <$> definitions k

theorem run_afterLead_of_interface (definition : Parser (Option Definition))
    (h : run peek? s = (.ok (some t), s)) (ht : t.kind = .keyword .interface) (m : Lead) :
    run (afterLead definition m t) s = run (do ended (.interface (← interface m))) s := by
  have hbare := run_bare?_of_ne h (by rw [ht]; decide) (by rw [ht]; decide) m
  have hkeyword : run (isKeyword .interface) s = (.ok true, s) := by
    rw [isKeyword, run_isNext, h]
    exact congrArg (fun kind => (Except.ok (some kind == some (.keyword .interface)), s)) ht
  have hlast : run (interfaceOrDeclaration m) s =
      run (do ended (.interface (← interface m))) s := by
    unfold interfaceOrDeclaration
    rw [run_bind, hkeyword]
    rfl
  unfold afterLead
  rw [run_bind, hbare, ht]
  dsimp only
  -- Nothing else is declared with the keyword, whatever stands in front of it.
  split <;> exact hlast

/-- What stands at the place is a declaration with the keyword of interfaces. -/
theorem run_definition_of_interface (hlead : run lead s = (.ok ⟨[], ps⟩, s'))
    (hpeek : run peek? s' = (.ok (some t), w)) (ht : t.kind = .keyword .interface) :
    run definition s = run (interfaceDefinition ps) w := by
  rw [definition, run_recurse]
  generalize unfold definitionRound s.unread = nested
  unfold definitionRound
  rw [run_bind, hlead]
  dsimp only
  rw [run_bind, peek, run_bind, hpeek]
  exact run_afterLead_of_interface (nested ()) (run_peek?_again hpeek) ht _

theorem exists_run_peek?_of_words (hs : s.At ⟨n, ws, m⟩) (hnext : m.next = (.ok (some t), m')) :
    ∃ u s', run peek? s = (.ok (some u), s') ∧ s'.At ⟨n, ws, m⟩ := by
  obtain ⟨t?, s', hrun, hsees, hat, -⟩ := run_peek?_of_at hs fun _ => ⟨some t, by rw [hnext]⟩
  cases ws with
  | nil =>
    have hsees : m.next.1 = .ok t? := hsees
    rw [hnext] at hsees
    cases hsees
    exact ⟨t, s', hrun, hat⟩
  | cons word ws =>
    obtain ⟨u, rfl, -⟩ := hsees
    exact ⟨u, s', hrun, hat⟩

/-- The first definition, up to the keyword of the interface. -/
theorem exists_run_definitions_of_interface (hs : s.At ⟨0, gs.flatMap PropertyList.words, m⟩)
    (hkeys : ((gs.flatMap PropertyList.properties).map Property.key).Nodup)
    (hnext : m.next = (.ok (some t), m')) (ht : t.kind = .keyword .interface) (k : Nat) :
    ∃ s', s'.ahead = some t ∧ s'.lexer = m' ∧ s'.openAngles = 0 ∧
      run (definitions (k + 1)) s =
        run (interfaceFirst (gs.flatMap PropertyList.properties) k) s' := by
  obtain ⟨_, s₁, hpeek, hs₁⟩ := exists_run_peek?_of_words hs hnext
  have hlead := answers_lead gs 0 [] m fun _ _ => endsLead_of_next hnext ht
  rw [Property.collect_of_nodup hkeys, List.append_nil, List.nil_append] at hlead
  obtain ⟨_, s₂, hlead, rfl, hs₂⟩ := hlead s₁ hs₁
  obtain ⟨s₃, hpeek', hahead, hlexer, hangles⟩ := exists_run_peek?_of_next hs₂ hnext
  refine ⟨s₃, hahead, hlexer, hangles, ?_⟩
  rw [run_definitions, hpeek]
  dsimp only
  rw [interfaceFirst, run_bind, run_bind, run_definition_of_interface hlead hpeek' ht]

/-- The properties of an interface do not change how the rest of it is read. -/
theorem interface_eq_map (ps : List Property) :
    interface ⟨[], ps⟩ = (fun i => { i with properties := ps }) <$> interface {} := by
  unfold interface
  simp only [List.isEmpty_nil, Bool.not_true, Bool.false_eq_true, if_false, map_bind,
    apply_ite, map_pure]

theorem exists_of_run_interfaceDefinition {a : Option Definition} (ps : List Property)
    (hs : s.Extends [] 0 s') (hrun : run (interfaceDefinition []) s = (.ok a, w)) :
    ∃ i w', a = some (.interface i) ∧ w.Extends [] 0 w' ∧
      run (interfaceDefinition ps) s' =
        (.ok (some (.interface { i with properties := ps })), w') := by
  obtain ⟨i, s₁, hinterface, hrun⟩ := exists_of_run_bind hrun
  obtain ⟨_, s₂, hend, hrun⟩ := exists_of_run_bind hrun
  cases hrun
  obtain ⟨_, s₁', hinterface', rfl, hs₁⟩ := (copies_interface {}).exists_of_run hs hinterface
  obtain ⟨_, s₂', hend', -, hs₂⟩ := (closes_expectPunct _ _).exists_of_run hs₁ hend
  refine ⟨i, s₂', rfl, hs₂, ?_⟩
  rw [interfaceDefinition, run_bind, interface_eq_map, run_map, hinterface']
  show run (expectPunct _ _ >>= _) s₁' = _
  rw [run_bind, hend']
  rfl

/-- **The same text behind other properties.** -/
theorem exists_of_run_interfaceFirst {k k' : Nat} {found : List (Option Definition)}
    (ps : List Property) (hk : k ≤ k') (hs : s.Extends [] 0 s')
    (hrun : run (interfaceFirst [] k) s = (.ok found, w)) :
    ∃ i more w', found = some (.interface i) :: more ∧
      run (interfaceFirst ps k') s' =
        (.ok (some (.interface { i with properties := ps }) :: more), w') := by
  obtain ⟨a, s₁, hdefinition, hmore⟩ := exists_of_run_bind hrun
  obtain ⟨i, s₁', rfl, hs₁, hdefinition'⟩ := exists_of_run_interfaceDefinition ps hs hdefinition
  obtain ⟨more, hrest, rfl⟩ := exists_of_run_map hmore
  obtain ⟨_, w', hrest', rfl, -⟩ := (copies_definitions hk).exists_of_run hs₁ hrest
  refine ⟨i, more, w', rfl, ?_⟩
  rw [interfaceFirst, run_bind, hdefinition']
  dsimp only
  rw [run_map, hrest']
  rfl

/-! ## Texts -/

/-- The stream stands behind the keyword of an interface, which is still ahead. -/
structure BehindKeyword (d : Dialect) (u : Text) (s : TokenStream) : Prop where
  ahead : ∃ line, s.ahead = some ⟨.keyword .interface, "interface".toList, line⟩
  lexer : s.lexer.InFrontOf d [.ordinary] u
  atLineStart : s.lexer.atLineStart = false
  openAngles : s.openAngles = 0

theorem BehindKeyword.extends (h : BehindKeyword d u s) (h' : BehindKeyword d u s') :
    s.Extends [] 0 s' := by
  obtain ⟨line, hahead⟩ := h.ahead
  obtain ⟨line', hahead'⟩ := h'.ahead
  refine ⟨h.lexer.extends h'.lexer (h.atLineStart.trans h'.atLineStart.symm), ?_, h.openAngles,
    h'.openAngles, ?_⟩
  · rw [hahead, hahead']
    exact .some ⟨line', rfl⟩
  · intro t ht hbracket
    rw [hahead] at ht
    obtain rfl := Option.some.inj ht
    cases hbracket

variable {gaps : Nat → Text}

/-- The words of the property lists come first. -/
theorem exists_at_ofText (hgs : ∀ g ∈ gs, ∀ p ∈ g.properties, p.IsSpellable)
    (hgaps : ∀ k, IsSpace (gaps k)) (d : Dialect) (u : Text) :
    ∃ m, (TokenStream.ofText d (Word.laid gaps (gs.flatMap PropertyList.words) ++ u)).At
        ⟨0, gs.flatMap PropertyList.words, m⟩ ∧ m.InFrontOf d [.ordinary] (gaps 0 ++ u) := by
  have hstart (cs : Text) : (Lexer.ofText d cs).InFrontOf d (Mode.stack [] .ordinary) cs :=
    ⟨⟨rfl, rfl, rfl⟩, rfl⟩
  obtain ⟨m, hm, hgives⟩ := (Listed.propertyLists hgs).gives hgaps (hstart _)
  exact ⟨m, ⟨rfl, .unread rfl hgives⟩, hm⟩

/-- With distinct keys, the properties are those of the interface. -/
theorem exists_run_definitions_ofText (hgs : ∀ g ∈ gs, ∀ p ∈ g.properties, p.IsSpellable)
    (hgaps : ∀ k, IsSpace (gaps k))
    (hkeys : ((gs.flatMap PropertyList.properties).map Property.key).Nodup)
    (hu : ∀ c ∈ u.head?, isWordPart c = false) (d : Dialect) (k : Nat) :
    ∃ s, BehindKeyword d u s ∧
      run (definitions (k + 1)) (.ofText d (Word.laid gaps (gs.flatMap PropertyList.words) ++
          ("interface".toList ++ u))) =
        run (interfaceFirst (gs.flatMap PropertyList.properties) k) s := by
  obtain ⟨m, hat, hm⟩ := exists_at_ofText hgs hgaps d ("interface".toList ++ u)
  obtain ⟨line, m', hnext, hm', hstart⟩ := hm.interfaceKeyword (hgaps 0) hu
  obtain ⟨s, hahead, hlexer, hangles, hrun⟩ :=
    exists_run_definitions_of_interface hat hkeys hnext rfl k
  refine ⟨s, ⟨⟨line, hahead⟩, ?_, ?_, hangles⟩, hrun⟩
  · rw [hlexer]
    exact hm'
  · rw [hlexer]
    exact hstart

/-- **Properties with distinct keys in front of an interface.** -/
theorem ofText_of_nodup (hgs : ∀ g ∈ gs, ∀ p ∈ g.properties, p.IsSpellable)
    (hgaps : ∀ k, IsSpace (gaps k))
    (hkeys : ((gs.flatMap PropertyList.properties).map Property.key).Nodup)
    (hu : ∀ c ∈ u.head?, isWordPart c = false) {i : Interface} {ds : List Definition}
    (h : Specification.ofText d ("interface".toList ++ u) = .ok ⟨.interface i :: ds⟩) :
    Specification.ofText d (Word.laid gaps (gs.flatMap PropertyList.words) ++
      ("interface".toList ++ u)) =
      .ok ⟨.interface { i with properties := gs.flatMap PropertyList.properties } :: ds⟩ := by
  obtain ⟨found, w, hfound, hds⟩ := ofText_eq_ok_iff.1 h
  -- The text on its own has no property list and no white space in front of the keyword.
  have hnone : ∀ g ∈ ([] : List PropertyList), ∀ p ∈ g.properties, p.IsSpellable :=
    List.forall_mem_nil _
  have hspace (k : Nat) : IsSpace ((fun _ => []) k) := nofun
  obtain ⟨s, hs, hrun⟩ := exists_run_definitions_ofText hnone hspace List.nodup_nil hu d
    (6 * ("interface".toList ++ u).length)
  have halone : run (interfaceFirst [] (6 * ("interface".toList ++ u).length)) s = (.ok found, w) :=
    hrun.symm.trans hfound
  obtain ⟨s', hs', hrun'⟩ := exists_run_definitions_ofText hgs hgaps hkeys hu d
    (6 * (Word.laid gaps (gs.flatMap PropertyList.words) ++ ("interface".toList ++ u)).length)
  have hle : 6 * ("interface".toList ++ u).length ≤
      6 * (Word.laid gaps (gs.flatMap PropertyList.words) ++ ("interface".toList ++ u)).length :=
    Nat.mul_le_mul_left 6 (List.suffix_append _ _).length_le
  obtain ⟨i', more, w', rfl, hlong⟩ := exists_of_run_interfaceFirst
    (gs.flatMap PropertyList.properties) hle (hs.extends hs') halone
  obtain ⟨rfl, rfl⟩ : i' = i ∧ more.filterMap id = ds := by simpa using hds
  exact ofText_eq_ok_iff.2 ⟨_, w', hrun'.trans hlong, rfl⟩

/-- **A repeated key is reported, whatever stands behind the lists.** -/
theorem exists_ofText_eq_error (hgs : ∀ g ∈ gs, ∀ p ∈ g.properties, p.IsSpellable)
    (hgaps : ∀ k, IsSpace (gaps k)) {fault : SyntaxFault}
    (hfault : Property.collect [] (gs.flatMap PropertyList.properties) = .error fault)
    (d : Dialect) (u : Text) :
    ∃ line, Specification.ofText d (Word.laid gaps (gs.flatMap PropertyList.words) ++ u) =
      .error (.grammar ⟨fault, some line⟩) := by
  obtain ⟨m, hat, -⟩ := exists_at_ofText hgs hgaps d u
  have hlead := answers_lead gs 0 [] m fun all hall => by
    rw [hfault] at hall
    cases hall
  rw [hfault, List.append_nil] at hlead
  obtain ⟨t, s₁, hpeek, hs₁⟩ : ∃ t s₁,
      run peek? (.ofText d (Word.laid gaps (gs.flatMap PropertyList.words) ++ u)) =
      (.ok (some t), s₁) ∧ s₁.At ⟨0, gs.flatMap PropertyList.words, m⟩ := by
    cases gs with
    | nil => cases hfault
    | cons g gs =>
      obtain ⟨_, s₁, hpeek, ⟨t, rfl, -⟩, hs₁, -⟩ := run_peek?_of_at hat (by rintro ⟨⟩)
      exact ⟨t, s₁, hpeek, hs₁⟩
  obtain ⟨line, s₂, hrun⟩ := hlead s₁ hs₁
  have hdefinition : run definition s₁ = (.error (.grammar ⟨fault, some line⟩), s₂) := by
    rw [definition, run_recurse]
    show run (lead >>= _) s₁ = _
    rw [run_bind, hrun]
  refine ⟨line, ?_⟩
  rw [ofText_eq, run_definitions, hpeek]
  dsimp only
  rw [run_bind, hdefinition]
  rfl

end Parser

/-- **Property lists in front of an interface.** Whatever the keys of the properties are,
    keywords among them: if they are distinct, the interface has these properties and the rest
    of the text is read as without them. If not, the first repeated key is reported. -/
theorem Specification.ofText_propertyLists (d : Dialect) (gs : List PropertyList)
    (hgs : ∀ g ∈ gs, ∀ p ∈ g.properties, p.IsSpellable) {gaps : Nat → Text}
    (hgaps : ∀ k, IsSpace (gaps k)) :
    (((gs.flatMap PropertyList.properties).map Property.key).Nodup → ∀ u i ds,
      (∀ c ∈ u.head?, isWordPart c = false) →
        ofText d ("interface".toList ++ u) = .ok ⟨.interface i :: ds⟩ →
      ofText d (Word.laid gaps (gs.flatMap PropertyList.words) ++ ("interface".toList ++ u)) =
        .ok ⟨.interface { i with properties := gs.flatMap PropertyList.properties } :: ds⟩) ∧
    (¬((gs.flatMap PropertyList.properties).map Property.key).Nodup → ∃ before p after,
      gs.flatMap PropertyList.properties = before ++ p :: after ∧
      (before.map Property.key).Nodup ∧ p.key ∈ before.map Property.key ∧
      ∀ u, ∃ line, ofText d (Word.laid gaps (gs.flatMap PropertyList.words) ++ u) =
        .error (.grammar ⟨.repeatedProperty p.key, some line⟩)) := by
  refine ⟨fun hkeys u i ds hu h => Parser.ofText_of_nodup hgs hgaps hkeys hu h, fun hkeys => ?_⟩
  obtain ⟨before, p, after, heq, hbefore, hp⟩ := Property.exists_repeated hkeys
  refine ⟨before, p, after, heq, hbefore, hp, Parser.exists_ofText_eq_error hgs hgaps ?_ d⟩
  rw [heq]
  exact Property.collect_of_repeated [] hbefore hp after

/-- Keywords as keys and as values, a comma behind the last property, and a second list. -/
theorem Specification.ofText_propertyLists_keywords :
    ofText .omg "[in=module,native,][k=f(a(b),n=07]interface X;".toList =
      .ok ⟨[.interface ⟨"X".toList, [⟨"in".toList, some (.word "module".toList)⟩,
        ⟨"native".toList, none⟩, ⟨"k".toList, some (.call "f".toList "a(b".toList)⟩,
        ⟨"n".toList, some (.literal (.integer "07".toList))⟩], none, none⟩]⟩ ∧
    ∃ line, ofText .omg "[native,][in,native]%".toList =
      .error (.grammar ⟨.repeatedProperty "native".toList, some line⟩) := by
  have hspace (k : Nat) : IsSpace ((fun _ => []) k) := nofun
  have hbare {key : Text} (hkey : IsName key) : Property.IsSpellable ⟨key, none⟩ := ⟨hkey, nofun⟩
  have hvalue {key : Text} {v : PropertyValue} (hkey : IsName key) (hv : v.IsSpellable) :
      Property.IsSpellable ⟨key, some v⟩ := ⟨hkey, fun _ h => Option.some.inj h ▸ hv⟩
  constructor
  · have hnumber : IsNumber .integer "07".toList := ⟨.octal ['7'], by decide, rfl, rfl⟩
    refine (ofText_propertyLists .omg
      [⟨[⟨"in".toList, some (.word "module".toList)⟩, ⟨"native".toList, none⟩],
      true⟩, ⟨[⟨"k".toList, some (.call "f".toList "a(b".toList)⟩,
        ⟨"n".toList, some (.literal (.integer "07".toList))⟩], false⟩] ?_ hspace).1 (by decide)
          " X;".toList
      ⟨"X".toList, [], none, none⟩ [] (by rintro c ⟨⟩; rfl) (by decide +kernel)
    simp only [List.forall_mem_cons, List.not_mem_nil, false_imp_iff, implies_true, and_true]
    refine ⟨⟨hvalue (by decide) ?_, hbare (by decide)⟩, hvalue (by decide) ?_,
      hvalue (by decide) hnumber⟩
    · show IsName "module".toList
      decide
    · show IsName "f".toList ∧ ')' ∉ "a(b".toList
      decide
  · have hfails := (ofText_propertyLists .omg [⟨[⟨"native".toList, none⟩], true⟩,
      ⟨[⟨"in".toList, none⟩, ⟨"native".toList, none⟩], false⟩] ?_ hspace).2 (by decide)
    · obtain ⟨before, p, after, heq, -, hp, hfails⟩ := hfails
      have hkey : p.key = "native".toList := by
        rcases before with _ | ⟨b, _ | ⟨c, before⟩⟩
        · cases hp
        · cases heq
          exact absurd hp (by decide)
        · obtain ⟨rfl, rfl⟩ : before = [] ∧ after = [] := by
            have hlength := congrArg List.length heq
            simp only [List.flatMap_cons, List.flatMap_nil, List.length_append, List.length_cons,
              List.length_nil] at hlength
            exact ⟨List.length_eq_zero_iff.1 (by omega), List.length_eq_zero_iff.1 (by omega)⟩
          cases heq
          rfl
      rw [hkey] at hfails
      exact hfails ['%']
    · simp only [List.forall_mem_cons, List.not_mem_nil, false_imp_iff, implies_true, and_true]
      exact ⟨hbare (by decide), hbare (by decide), hbare (by decide)⟩

end IdlFrontend
