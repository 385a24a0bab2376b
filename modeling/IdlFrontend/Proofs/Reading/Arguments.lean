import IdlFrontend.Proofs.Parser.Properties
import IdlFrontend.Proofs.Reading.LeadingProperties

/-!
# Parentheses in the arguments of a property

The arguments of a property end at the first closing parenthesis, and parentheses that were
opened before are not counted. The property that is read there stays the first one. So of all
texts with balanced parentheses, just those without any are read as arguments.

Results:

* `exists_of_run_lead`, `exists_of_run_definition_of_arguments`: the property up to the first
  closing parenthesis is the first one of the definition.
* `Specification.ofText_arguments_iff`: which balanced texts are read as arguments.
-/

namespace IdlFrontend

/-! ## Balanced texts -/

/-- To each opening parenthesis there is a closing one. -/
inductive Text.Balanced : Text → Prop
  | nil : Text.Balanced []
  | plain {c : Char} {cs : Text} : c ≠ '(' → c ≠ ')' → Text.Balanced cs → Text.Balanced (c :: cs)
  | nested {inner cs : Text} : Text.Balanced inner → Text.Balanced cs →
      Text.Balanced ('(' :: (inner ++ ')' :: cs))

theorem Text.Balanced.mem_iff {cs : Text} (h : Text.Balanced cs) : ')' ∈ cs ↔ '(' ∈ cs := by
  induction h with
  | nil => simp
  | plain hopen hclose _ ih => simp [hopen.symm, hclose.symm, ih]
  | nested => simp

variable {d : Dialect} {key args x gap u : Text} {ps before : List Property} {n : Nat} {m : Lexer}
    {l : Lead}
  {s w : TokenStream}

/-! ## What stays in front -/

namespace Parser

theorem results_propertyNext {more : List Property → Parser (List Property)}
    (hmore : ∀ before, ps <+: before → Results (ps <+: ·) (more before)) (h : ps <+: before) :
    Results (ps <+: ·) (propertyNext more before) := by
  refine results_bind fun _ => returns_ite (fun _ => hmore before h) fun _ => ?_
  exact results_bind fun _ => returns_pure h

theorem results_unfold_propertyRound (depth : Nat) (h : ps <+: before) :
    Results (ps <+: ·) (unfold propertyRound depth before) := by
  refine returns_unfold (J := (ps <+: ·)) (fun more hmore before h => ?_) depth h
  refine results_bind fun _ => returns_ite (fun _ => returns_pure h) fun _ => ?_
  refine results_bind fun key => results_bind fun value => returns_unless ?_
  exact results_propertyNext hmore (h.trans (List.prefix_append before _))

theorem results_propertyList (h : ps <+: before) : Results (ps <+: ·) (propertyList before) :=
  results_bind fun _ => results_bind fun _ => fun s =>
    results_unfold_propertyRound (s.unread + 1) h s

theorem results_unfold_leadRound (depth : Nat) (h : ps <+: l.properties) :
    Results (fun l => ps <+: l.properties) (unfold leadRound depth l) := by
  refine returns_unfold (J := fun l => ps <+: l.properties) (fun more hmore l h => ?_) depth h
  refine results_bind fun _ => returns_ite (fun _ => ?_) fun _ => results_bind fun kind? => ?_
  · exact (results_propertyList h).bind fun all hall => hmore _ hall
  cases kind?.bind modifier? with
  | none => exact returns_pure h
  | some modifier => exact returns_unless (results_bind fun _ => hmore _ h)

/-! ## The first property -/

/-- A parser goes on with what it has read. -/
theorem Reads.exists_run_bind {α : Type} {p : Parser α} {P Q : Place} {a : α} (hp : Reads p P a Q)
    (hs : s.At P) :
    ∃ s', s'.At Q ∧ ∀ {β : Type} (f : α → Parser β), run (p >>= f) s = run (f a) s' := by
  obtain ⟨_, s', hrun, rfl, hs'⟩ := hp s hs
  exact ⟨s', hs', fun f => by rw [run_bind, hrun]⟩

theorem exists_of_run_propertiesAfter {all : List Property}
    (hs : s.At ⟨n, [.identifier key, .propertyArgs args], m⟩)
    (hrun : run (propertiesAfter []) s = (.ok all, w)) :
    [⟨key, some (.args args)⟩] <+: all := by
  have hround : run (propertiesAfter []) s =
      run (propertyRound (unfold propertyRound s.unread) []) s := rfl
  have hopen : Reads (acceptPunct .closeBracket) ⟨n, [.identifier key, .propertyArgs args], m⟩ false
      ⟨n, [.identifier key, .propertyArgs args], m⟩ :=
    reads_accept_false (Place.avoids_word (by rintro ⟨⟩) (by rintro ⟨⟩))
  obtain ⟨s₁, hs₁, hclose⟩ := hopen.exists_run_bind hs
  obtain ⟨s₂, hs₂, hkey⟩ := (reads_identifier key "for property name").exists_run_bind hs₁
  obtain ⟨s₃, hs₃, hvalue⟩ := (reads_propertyValue?_args args).exists_run_bind hs₂
  rw [hround, propertyRound, hclose, if_neg Bool.false_ne_true, hkey, hvalue] at hrun
  have hnext : Results ([⟨key, some (.args args)⟩] <+: ·)
      (propertyNext (unfold propertyRound s.unread) [⟨key, some (.args args)⟩]) :=
    results_propertyNext (fun before h => results_unfold_propertyRound _ h) List.prefix_rfl
  exact (hnext s₃ all w trivial hrun).2

/-- The property stays the first one of all that stand in front of the declaration. -/
theorem exists_of_run_lead
    (hs : s.At ⟨n, [.openProperties, .identifier key, .propertyArgs args], m⟩)
    (hrun : run lead s = (.ok l, w)) : [⟨key, some (.args args)⟩] <+: l.properties := by
  have hround : run lead s = run (leadRound (unfold leadRound s.unread) {}) s := rfl
  have hlook : Reads (isPunct .openBracket) ⟨n, [.openProperties, .identifier key,
      .propertyArgs args], m⟩ true ⟨n, [.openProperties, .identifier key, .propertyArgs args], m⟩ :=
    reads_isNext_true .openProperties (by rintro ⟨⟩)
  obtain ⟨s₁, hs₁, hbracket⟩ := hlook.exists_run_bind hs
  obtain ⟨s₂, hs₂, hlist⟩ :=
    exists_run_openProperties "to start property list" hs₁ (propertiesAfter [])
  have hlist : run (propertyList []) s₁ = run (propertiesAfter []) s₂ := hlist
  rw [hround, leadRound, hbracket, if_pos rfl] at hrun
  obtain ⟨all, s₃, hproperties, hmore⟩ := exists_of_run_bind hrun
  rw [hlist] at hproperties
  have hall := exists_of_run_propertiesAfter hs₂ hproperties
  exact (results_unfold_leadRound s.unread (l := ⟨[], all⟩) hall s₃ l w trivial hmore).2

theorem exists_of_run_definition_of_arguments {d? : Option Definition}
    (hs : s.At ⟨n, [.openProperties, .identifier key, .propertyArgs args], m⟩)
    (hrun : run definition s = (.ok d?, w)) :
    ∃ d, d? = some d ∧ [⟨key, some (.args args)⟩] <+: d.properties := by
  rw [definition, run_recurse] at hrun
  obtain ⟨l, s₁, hlead, hrun⟩ := exists_of_run_bind hrun
  obtain ⟨t, s₂, -, hrun⟩ := exists_of_run_bind hrun
  have hfirst := exists_of_run_lead hs hlead
  obtain ⟨hsome, hnone⟩ := (results_afterLead _ l t s₂ d? w trivial hrun).2
  cases d? with
  | none =>
    have hempty := hnone rfl
    rw [Lead.isEmpty, Bool.and_eq_true, List.isEmpty_iff, List.isEmpty_iff] at hempty
    rw [hempty.2] at hfirst
    cases List.prefix_nil.1 hfirst
  | some d => exact ⟨d, rfl, hsome d rfl ▸ hfirst⟩

/-! ## Texts -/

/-- The words up to the first closing parenthesis. What stands behind it does not matter. -/
theorem exists_at_ofText_of_arguments (hkey : IsName key) (hargs : ')' ∉ args) (d : Dialect)
    (x : Text) :
    ∃ m, (TokenStream.ofText d ('[' :: (key ++ ('(' :: (args ++ [')']) ++ x)))).At
      ⟨0, [.openProperties, .identifier key, .propertyArgs args], m⟩ := by
  have hstart : (Lexer.ofText d ('[' :: (key ++ ('(' :: (args ++ [')']) ++ x)))).InFrontOf d
      [.ordinary] (['['] ++ (key ++ ('(' :: (args ++ [')']) ++ x))) := ⟨⟨rfl, rfl, rfl⟩, rfl⟩
  have hbracket := hstart.mark .openBracket .stay (by decide) rfl (by decide)
  have hlist : (((Lexer.ofText d ('[' :: (key ++ ('(' :: (args ++ [')']) ++ x)))).skip 1).push
      .properties).InFrontOf
      d [.properties, .ordinary] (key ++ ('(' :: (args ++ [')']) ++ x)) := ⟨⟨rfl, rfl, rfl⟩, rfl⟩
  have hname := hlist.item (w := .identifier key) hkey fun _ c hc => by
    obtain rfl : '(' = c := Option.some.inj hc
    rfl
  have hvalue := hlist.skip.args hargs
  have hlast :=
    Lexer.Gives.cons hvalue (Token.offers_word (w := .propertyArgs args) (by rintro ⟨⟩) _ _
      []) (.nil _)
  have hgives :=
    Lexer.Gives.cons hname (Token.offers_word (w := .identifier key) (by rintro ⟨⟩) _ _ _) hlast
  exact ⟨_, rfl, .unread rfl (.cons hbracket (.properties rfl) hgives)⟩

/-- What is found first has the arguments up to the first closing parenthesis. -/
theorem exists_properties_of_ofText (hkey : IsName key) (hargs : ')' ∉ args) {spec : Specification}
    (h : Specification.ofText d ('[' :: (key ++ ('(' :: (args ++ [')']) ++ x))) = .ok spec) :
    ∃ first more, spec = ⟨first :: more⟩ ∧ [⟨key, some (.args args)⟩] <+: first.properties := by
  obtain ⟨found, w, hrun, rfl⟩ := ofText_eq_ok_iff.1 h
  obtain ⟨m, hat⟩ := exists_at_ofText_of_arguments hkey hargs d x
  obtain ⟨_, s₁, hpeek, ⟨t, rfl, -⟩, hs₁, -⟩ := run_peek?_of_at hat (by rintro ⟨⟩)
  rw [run_definitions, hpeek] at hrun
  dsimp only at hrun
  obtain ⟨d?, s₂, hdefinition, hmore⟩ := exists_of_run_bind hrun
  obtain ⟨first, rfl, hfirst⟩ := exists_of_run_definition_of_arguments hs₁ hdefinition
  obtain ⟨more, -, rfl⟩ := exists_of_run_map hmore
  exact ⟨first, more.filterMap id, rfl, hfirst⟩

end Parser

/-- **Balanced texts as arguments.** A text with balanced parentheses is read as the arguments
    of a property in front of an interface if and only if no parenthesis is opened in it. -/
theorem Specification.ofText_arguments_iff {i : Interface} {ds : List Definition}
    (hkey : IsName key) (hargs : Text.Balanced args) (hgap : IsSpace gap)
    (hu : ∀ c ∈ u.head?, isWordPart c = false)
    (h : ofText d ("interface".toList ++ u) = .ok ⟨.interface i :: ds⟩) :
    ofText d ('[' :: (key ++ '(' :: (args ++ ")]".toList)) ++ (gap ++ ("interface".toList ++ u))) =
        .ok ⟨.interface { i with properties := [⟨key, some (.args args)⟩] } :: ds⟩ ↔
          '(' ∉ args := by
  rw [← hargs.mem_iff]
  constructor
  · intro heq hmem
    -- What is read as arguments ends too early.
    obtain ⟨read, y, rfl, hread⟩ := List.eq_append_cons_of_mem hmem
    have htext : '[' :: (key ++ '(' :: (read ++ ')' :: y ++ ")]".toList)) ++
        (gap ++ ("interface".toList ++ u)) =
        '[' :: (key ++
          ('(' :: (read ++ [')']) ++
            (y ++ ")]".toList ++ (gap ++ ("interface".toList ++ u))))) := by
      simp only [List.cons_append, List.append_assoc, List.nil_append]
    rw [htext] at heq
    obtain ⟨first, more, hspec, hfirst⟩ := Parser.exists_properties_of_ofText hkey hread heq
    cases hspec
    obtain ⟨-, hvalue⟩ := Property.mk.inj (List.cons_prefix_cons.1 hfirst).1
    have hread : read = read ++ ')' :: y := PropertyValue.args.inj (Option.some.inj hvalue)
    cases List.self_eq_append_right.1 hread
  · intro hflat
    have hgaps (k : Nat) : IsSpace (if k = 0 then gap else []) := by
      split
      · exact hgap
      · exact nofun
    have hp : Property.IsSpellable ⟨key, some (.args args)⟩ :=
      ⟨hkey, fun _ hv => Option.some.inj hv ▸ hflat⟩
    have hgs : ∀ g ∈ [PropertyList.mk [⟨key, some (.args args)⟩] false], ∀ p ∈ g.properties,
        p.IsSpellable := by
      simpa using hp
    have hlists := Parser.ofText_of_nodup hgs hgaps (List.nodup_singleton key) hu h
    have htext : Word.laid (fun k => if k = 0 then gap else [])
          (List.flatMap PropertyList.words [⟨[⟨key, some (.args args)⟩], false⟩]) =
        '[' :: (key ++ '(' :: (args ++ ")]".toList)) ++ gap := by
      have hclose : Punct.text .closeBracket = [']'] := rfl
      simp [PropertyList.words, Property.itemWords, Property.words, PropertyValue.words, Word.laid,
        Word.text, hclose]
    rw [htext, List.append_assoc] at hlists
    exact hlists

/-- What stands behind the first closing parenthesis is no token of a property list. -/
theorem Specification.ofText_arguments_iff_nested :
    ofText .omg "[key(a)] interface X;".toList =
      .ok ⟨[.interface ⟨"X".toList, [⟨"key".toList, some (.args "a".toList)⟩], none, none⟩]⟩ ∧
    ofText .omg "[key((a))] interface X;".toList ≠
      .ok ⟨[.interface ⟨"X".toList, [⟨"key".toList, some (.args "(a)".toList)⟩], none, none⟩]⟩ ∧
    ofText .omg "[key((a))] interface X;".toList =
      .error (.token ⟨")]".toList, .properties, 1⟩) := by
  have halone : ofText .omg ("interface".toList ++ " X;".toList) =
      .ok ⟨[.interface ⟨"X".toList, [], none, none⟩]⟩ := by
    decide +kernel
  have hu : ∀ c ∈ (" X;".toList).head?, isWordPart c = false := by
    rintro c ⟨⟩
    rfl
  have hflat : Text.Balanced "a".toList := .plain (by decide) (by decide) .nil
  have hiff {args : Text} (hargs : Text.Balanced args) :=
    ofText_arguments_iff (show IsName "key".toList by decide) hargs
      (show IsSpace [' '] by decide) hu halone
  refine ⟨(hiff hflat).2 (by decide), fun h => ?_, by decide +kernel⟩
  exact absurd ((hiff (.nested hflat .nil)).1 h) (by decide)

end IdlFrontend
