import IdlFrontend.Frontend
import IdlFrontend.Proofs.Lexer.Pragmas
import IdlFrontend.Proofs.Parser.Modules

/-!
# The names of modules

A pragma is recorded as soon as the lexer reads its line, and the parser may be one token behind
the lexer. Still the prefix of a module is that of the last pragma line in front of its name and
behind the name of the module before: the keyword and the name at the head of a module are read
with nothing taken from the pragmas in between, and nothing but a head takes a pragma.

Results:

* `Tracks.head`: what is read of a module up to its name.
* `Specification.moduleNames_of_ofText`: the names of all modules of a text.
-/

namespace IdlFrontend

/-- The last token of the stretches. -/
def lastToken? (ss : List Step) : Option Token := (ss.filterMap Step.token?).getLast?

/-- What a lexer has read that a parser drives. Behind an opening bracket the parser may enter the
    mode of property lists, and it may take the pragma for the name of a module. -/
inductive Lexer.Driven (start : Lexer) : List Step → Lexer → Prop
  | start : Driven start [] start
  | step {ss : List Step} {l : Lexer} {s : Step} (h : Driven start ss l) (hs : l.step? = some s) :
    Driven start (ss ++ [s]) s.next
  | properties {ss : List Step} {l : Lexer} {t : Token} (h : Driven start ss l)
    (ht : lastToken? ss = some t) (hbracket : t.kind = .punct .openBracket) :
    Driven start ss (l.push .properties)
  | pragma {ss : List Step} {l : Lexer} (h : Driven start ss l) :
    Driven start ss (l.takePragma "prefix".toList).2

/-- What is read of a module up to its name. -/
structure ModuleHead where
  /-- The stretches behind the name of the module before, or from the start of the text. -/
  before : List Step
  /-- The stretch that is the name. -/
  name : Step

namespace ModuleHead

def stretches (head : ModuleHead) : List Step := head.before ++ [head.name]

/-- The name is the identifier directly behind the first keyword of modules. -/
structure Opens (head : ModuleHead) : Prop where
  keyword : ∃ ts k, head.before.filterMap Step.token? = ts ++ [k] ∧ k.kind = .keyword .module ∧
    ∀ t ∈ ts, t.kind ≠ .keyword .module
  name : ∃ t, head.name.token? = some t ∧ t.kind = .identifier

/-- The last pragma line with the name `prefix` in front of the name. -/
def pragma? (head : ModuleHead) : Option Pragma := lastPragma? "prefix".toList head.before

/-- The name behind the body of the pragma and a dot. A value that is missing, not quoted or
    empty in its quotes counts for nothing. -/
def fullName (head : ModuleHead) : Text :=
  match (head.pragma?.bind Pragma.value).bind pragmaBody? with
  | some (c :: body) => c :: body ++ '.' :: head.name.text
  | _ => head.name.text

theorem fullName_eq {head : ModuleHead} {before : Text}
    (h : Parser.prefixOf? head.pragma? = some before) :
    head.fullName = before ++ head.name.text := by
  unfold Parser.prefixOf? at h
  unfold fullName
  cases hvalue : head.pragma?.bind Pragma.value with
  | none =>
    rw [hvalue] at h
    cases h
    rfl
  | some value =>
    rw [hvalue] at h
    obtain ⟨body, hbody, rfl⟩ := Option.map_eq_some_iff.1 h
    dsimp only [Option.bind_some]
    rw [hbody]
    cases body with
    | nil => rfl
    | cons c body => simp

end ModuleHead

namespace Lexer

variable {start l : Lexer} {ss : List Step}

theorem Driven.text_append (h : Driven start ss l) :
    ss.flatMap Step.text ++ l.rest = start.rest := by
  induction h with
  | start => rfl
  | @step ss l s h hs ih =>
    rw [List.flatMap_append, List.flatMap_singleton, List.append_assoc,
      Step.text_append_rest hs, ih]
  | properties h ht hbracket ih => exact ih
  | @pragma ss l h ih =>
    have hrest : (l.takePragma "prefix".toList).2.rest = l.rest := by
      unfold takePragma
      split <;> rfl
    rwa [hrest]

theorem Driven.next (h : Driven start ss l) : Driven start (ss ++ l.stretches) l.next.2 := by
  fun_induction stretches l generalizing ss with
  | case1 l hrest =>
    rw [next_of_rest_eq_nil (by simpa using hrest), List.append_nil]
    exact h
  | case2 l hrest hnone =>
    rw [next_of_no_step (by simpa using hrest) hnone, List.append_nil]
    exact h
  | case3 l hrest s hs htoken =>
    obtain ⟨t, ht⟩ := Option.isSome_iff_exists.1 htoken
    rw [next_of_step (by simpa using hrest) hs, ht]
    exact h.step hs
  | case4 l hrest s hs htoken ih =>
    have hnone : s.token? = none := by simpa using htoken
    rw [next_of_step (by simpa using hrest) hs, hnone]
    have hmore := ih (h.step hs)
    rwa [List.append_assoc] at hmore

/-- The stretches up to the next token have no other token. -/
theorem filterMap_stretches {t? : Option Token} {l' : Lexer} (h : l.next = (.ok t?, l')) :
    l.stretches.filterMap Step.token? = t?.toList ∧
      ∀ t, t? = some t → ∃ init s, l.stretches = init ++ [s] ∧ init.filterMap Step.token? = [] ∧
        s.token? = some t ∧ s.pragma? = none ∧ t.text = s.text := by
  fun_induction stretches l with
  | case1 l hrest =>
    rw [next_of_rest_eq_nil (by simpa using hrest)] at h
    cases h
    exact ⟨rfl, fun t ht => by cases ht⟩
  | case2 l hrest hnone =>
    rw [next_of_no_step (by simpa using hrest) hnone] at h
    cases h
  | case3 l hrest s hs htoken =>
    obtain ⟨t, ht⟩ := Option.isSome_iff_exists.1 htoken
    rw [next_of_step (by simpa using hrest) hs, ht] at h
    cases h
    refine ⟨by simp [ht], fun u hu => ⟨[], s, rfl, rfl, ht.trans hu,
      pragma?_of_token? hs htoken, ?_⟩⟩
    cases hu
    obtain ⟨n, r, -, rfl⟩ := step?_eq_some_iff.1 hs
    obtain ⟨kind, -, rfl⟩ := Option.map_eq_some_iff.1 ht
    rfl
  | case4 l hrest s hs htoken ih =>
    have hnone : s.token? = none := by simpa using htoken
    rw [next_of_step (by simpa using hrest) hs, hnone] at h
    obtain ⟨htokens, hlast⟩ := ih h
    rw [List.filterMap_cons_none hnone]
    refine ⟨htokens, fun t ht => ?_⟩
    obtain ⟨init, u, hstretches, hinit, hu⟩ := hlast t ht
    exact ⟨s :: init, u, by rw [hstretches]; rfl, by rwa [List.filterMap_cons_none hnone], hu⟩

theorem rest_of_next_eq_none {l' : Lexer} (h : l.next = (.ok none, l')) : l'.rest = [] := by
  fun_induction Lexer.next l with
  | case1 l hrest =>
    cases h
    simpa using hrest
  | case2 => cases h
  | case3 l hrest s hs t ht => cases h
  | case4 l hrest s hs ht ih => exact ih h

end Lexer

namespace Parser

variable {l : Lexer} {heads : List ModuleHead} {more : List Step} {s s₁ u : TokenStream}

/-- The stretches of the heads, and those behind them. -/
def stretchesOf (heads : List ModuleHead) (more : List Step) : List Step :=
  heads.flatMap ModuleHead.stretches ++ more

/-- What is read is the heads of modules and more. The keyword of a module whose name is not read
    yet is ahead. -/
structure Tracks (l : Lexer) (heads : List ModuleHead) (more : List Step) (s : TokenStream) :
    Prop where
  driven : l.Driven (stretchesOf heads more) s.lexer
  opens : ∀ head ∈ heads, head.Opens
  keyword : ∃ ts, more.filterMap Step.token? =
    ts ++ (s.ahead.filter (·.kind = .keyword .module)).toList ∧
    ∀ t ∈ ts, t.kind ≠ .keyword .module
  bracket : ∀ t ∈ s.ahead, t.kind = .punct .openBracket →
    lastToken? (stretchesOf heads more) = some t
  pragma : s.lexer.pragmas.find? "prefix".toList = lastPragma? "prefix".toList more

theorem tracks_ofText (dialect : Dialect) (cs : Text) :
    Tracks (.ofText dialect cs) [] [] (.ofText dialect cs) where
  driven := .start
  opens := List.forall_mem_nil _
  keyword := ⟨[], rfl, List.forall_mem_nil _⟩
  bracket _ h := by cases h
  pragma := rfl

namespace Tracks

/-- Nothing but the tokens and the modes of the stream counts. -/
theorem of_eq (h : Tracks l heads more s) (hlexer : u.lexer = s.lexer)
    (hahead : u.ahead = s.ahead) :
    Tracks l heads more u where
  driven := hlexer ▸ h.driven
  opens := h.opens
  keyword := hahead ▸ h.keyword
  bracket := hahead ▸ h.bracket
  pragma := hlexer ▸ h.pragma

theorem stretchesOf_append (heads : List ModuleHead) (more ss : List Step) :
    stretchesOf heads (more ++ ss) = stretchesOf heads more ++ ss := (List.append_assoc _ _ _).symm

/-- Looking ahead reads the stretches up to the next token, unless one is ahead. -/
theorem peek {t? : Option Token} (h : Tracks l heads more s) (hrun : run peek? s = (.ok t?, u)) :
    ∃ more', Tracks l heads more' u := by
  cases hahead : s.ahead with
  | some t =>
    rw [run_peek?_of_ahead hahead] at hrun
    cases hrun
    exact ⟨more, h⟩
  | none =>
    rw [run_peek?, hahead] at hrun
    dsimp only at hrun
    rcases hnext : s.lexer.next with ⟨e | v?, l'⟩
    · rw [hnext] at hrun
      cases hrun
    rw [hnext] at hrun
    cases hrun
    obtain ⟨htokens, hlast⟩ := Lexer.filterMap_stretches hnext
    have hdriven := h.driven.next
    have hpragma := Lexer.find?_next s.lexer "prefix".toList
    rw [hnext] at hdriven hpragma
    refine ⟨more ++ s.lexer.stretches, ?_, h.opens, ?_, ?_, ?_⟩
    · rw [stretchesOf_append]
      exact hdriven
    · obtain ⟨ts, hts, hnone⟩ := h.keyword
      rw [hahead] at hts
      rw [List.filterMap_append, hts, htokens]
      by_cases hmodule : ∃ k ∈ t?, k.kind = .keyword .module
      · obtain ⟨k, rfl, hk⟩ := hmodule
        exact ⟨ts, by simp [Option.filter_some, hk], hnone⟩
      · refine ⟨ts ++ t?.toList, ?_, ?_⟩
        · cases t? with
          | none => simp
          | some t =>
            have hkind : t.kind ≠ .keyword .module := fun ht => hmodule ⟨t, rfl, ht⟩
            simp [Option.filter_some, hkind]
        · refine List.forall_mem_append.2
            ⟨hnone, fun t ht hkind => hmodule ⟨t, by simpa using ht, hkind⟩⟩
    · intro t ht _
      rw [lastToken?, stretchesOf_append, List.filterMap_append, htokens]
      cases ht
      simp
    · dsimp only at hpragma ⊢
      rw [hpragma, lastPragma?_append, h.pragma]

/-- A token that is taken is none of a head. -/
theorem taken {t : Token} (h : Tracks l heads more s) (hahead : s.ahead = some t)
    (ht : t.kind ≠ .keyword .module) {v : Option Token} (hv : ∀ w ∈ v, w.kind = .punct .greater)
    (hlexer : u.lexer = s.lexer) (hu : u.ahead = v) : Tracks l heads more u where
  driven := hlexer ▸ h.driven
  opens := h.opens
  keyword := by
    obtain ⟨ts, hts, hnone⟩ := h.keyword
    rw [hahead] at hts
    refine ⟨ts, hts.trans ?_, hnone⟩
    rw [hu]
    cases v with
    | none => simp [Option.filter_some, ht]
    | some w => simp [Option.filter_some, ht, hv w rfl]
  bracket w hw hkind := by
    rw [hu] at hw
    rw [hv w hw] at hkind
    cases hkind
  pragma := hlexer ▸ h.pragma

/-- **The head of a module is read up to its name**, and the last pragma in it is used up. -/
theorem head {name : Text} (h : Tracks l heads more s) (hrun : run moduleHead s = (.ok name, u)) :
    ∃ head : ModuleHead, Tracks l (heads ++ [head]) [] u ∧ head.fullName = name := by
  obtain ⟨k, s₁, t, s₂, before, hk, hkind, ht, htkind, hbefore, rfl, rfl⟩ :=
    exists_of_run_moduleHead hrun
  have hahead := ahead_of_peek? (s := s) (t := some k) (by rw [hk])
  rw [hk] at hahead
  obtain ⟨more₁, h₁⟩ := h.peek hk
  obtain ⟨ts, hts, hnone⟩ := h₁.keyword
  rw [hahead] at hts
  rw [run_peek?] at ht
  dsimp only [afterTake] at ht
  rcases hnext : s₁.lexer.next with ⟨e | v?, l'⟩
  · rw [hnext] at ht
    cases ht
  rw [hnext] at ht
  cases ht
  obtain ⟨-, hlast⟩ := Lexer.filterMap_stretches hnext
  obtain ⟨init, namestep, hstretches, hinit, htoken, hsilent, htext⟩ := hlast t rfl
  have hpragma := Lexer.find?_next s₁.lexer "prefix".toList
  have hdriven := h₁.driven.next
  rw [hnext] at hpragma hdriven
  rw [hstretches] at hpragma hdriven
  have htaken := Lexer.find?_takePragma l' "prefix".toList
  refine ⟨⟨more₁ ++ init, namestep⟩, ⟨?_, ?_, ⟨[], rfl, List.forall_mem_nil _⟩, ?_, ?_⟩, ?_⟩
  · have heq : stretchesOf (heads ++ [⟨more₁ ++ init, namestep⟩]) [] =
        stretchesOf heads more₁ ++ (init ++ [namestep]) := by
      simp [stretchesOf, ModuleHead.stretches]
    rw [heq]
    exact hdriven.pragma
  · refine List.forall_mem_append.2
      ⟨h₁.opens, List.forall_mem_singleton.2 ⟨⟨ts, k, ?_, hkind, hnone⟩, t, htoken, htkind⟩⟩
    rw [List.filterMap_append, hts, hinit]
    simp [hkind]
  · exact fun _ h => by cases h
  · exact htaken.2
  · have hfound : (l'.takePragma "prefix".toList).1 =
        lastPragma? "prefix".toList (more₁ ++ init) := by
      rw [htaken.1]
      dsimp only at hpragma
      rw [hpragma, h₁.pragma, lastPragma?_append, lastPragma?_append]
      have hlastname : lastPragma? "prefix".toList [namestep] =
          none := by simp [lastPragma?, hsilent]
      rw [hlastname, Option.none_or]
    rw [htext]
    refine ModuleHead.fullName_eq ?_
    rw [← hbefore]
    exact congrArg prefixOf? hfound.symm

end Tracks

/-- Whatever parsers do to a stream, what is read goes on to be heads of modules and more, and
    the heads that are added are those of the modules that were opened. -/
def headsCourse : Course where
  rel _ names s t := ∀ l heads more, Tracks l heads more s →
    ∃ heads' more', Tracks l heads' more' t ∧
    heads'.map ModuleHead.fullName = heads.map ModuleHead.fullName ++ names
  refl s l heads more h := ⟨heads, more, h, (List.append_nil _).symm⟩
  trans hst htu l heads more h := by
    obtain ⟨heads₁, more₁, h₁, heq₁⟩ := hst l heads more h
    obtain ⟨heads₂, more₂, h₂, heq₂⟩ := htu l heads₁ more₁ h₁
    exact ⟨heads₂, more₂, h₂, by rw [heq₂, heq₁, List.append_assoc]⟩
  weaken h := h
  peek hrun l heads more h := by
    obtain ⟨more', h'⟩ := h.peek hrun
    exact ⟨heads, more', h', (List.append_nil _).symm⟩
  take hahead ht l heads more h :=
    ⟨heads, more, h.taken hahead ht (v := none) (fun _ h => by cases h) rfl rfl,
      (List.append_nil _).symm⟩
  half {t s} hahead ht l heads more h := by
    refine ⟨heads, more, h.taken hahead (by rw [ht]; simp) (v := (afterHalf t s).ahead)
      (fun v hv => ?_) rfl rfl, (List.append_nil _).symm⟩
    cases hv
    rfl
  angles s n l heads more h := ⟨heads, more, h.of_eq rfl rfl, (List.append_nil _).symm⟩
  properties {t s} hahead ht l heads more h := by
    have htaken := h.taken hahead (by rw [ht]; simp) (u := afterTake t s) (v := none)
      (fun _ h => by cases h) rfl rfl
    refine ⟨heads, more, ⟨?_, htaken.opens, htaken.keyword, htaken.bracket, h.pragma⟩,
      (List.append_nil _).symm⟩
    exact h.driven.properties (h.bracket t hahead ht) ht
  module hrun l heads more h := by
    obtain ⟨head, h', hname⟩ := h.head hrun
    exact ⟨heads ++ [head], [], h', by rw [List.map_append, List.map_singleton, hname]⟩

/-- Items are read until there is none. -/
theorem exists_of_run_many {α : Type} {item : Parser (Option α)} {as : List α}
    (h : run (many item) s = (.ok as, u)) : ∃ t, run item t = (.ok none, u) := by
  have hunfold (depth : Nat) (s : TokenStream) (as : List α)
      (h : run (unfold (manyRound item) depth ()) s = (.ok as, u)) :
      ∃ t, run item t = (.ok none, u) := by
    induction depth generalizing s as with
    | zero => exact absurd h (fails_failAtEnd _ _ _)
    | succ depth ih =>
      obtain ⟨a?, t, hitem, hrest⟩ := exists_of_run_bind h
      cases a? with
      | none =>
        rw [run_pure] at hrest
        cases hrest
        exact ⟨s, hitem⟩
      | some a =>
        obtain ⟨as', v, hmore, hend⟩ := exists_of_run_bind hrest
        rw [run_pure] at hend
        cases hend
        exact ih t as' hmore
  exact hunfold (s.unread + 1) s as h

/-- A specification is read to the end of the text. -/
theorem rest_of_run_specification {spec : Specification} (h : run specification s = (.ok spec, u)) :
    u.ahead = none ∧ u.lexer.rest = [] := by
  rw [specification] at h
  obtain ⟨ds, v, hmany, hend⟩ := exists_of_run_bind h
  rw [run_pure] at hend
  cases hend
  obtain ⟨t, hitem⟩ := exists_of_run_many hmany
  unfold nextDefinition at hitem
  obtain ⟨t?, w, hpeek, hrest⟩ := exists_of_run_bind hitem
  cases t? with
  | some t =>
    obtain ⟨d, x, -, hend⟩ := exists_of_run_bind hrest
    rw [run_pure] at hend
    cases hend
  | none =>
    rw [run_pure] at hrest
    cases hrest
    rw [run_peek?] at hpeek
    cases hahead : t.ahead with
    | some v =>
      rw [hahead] at hpeek
      cases hpeek
    | none =>
      rw [hahead] at hpeek
      rcases hnext : t.lexer.next with ⟨e | v?, l'⟩
      · rw [hnext] at hpeek
        cases hpeek
      · rw [hnext] at hpeek
        cases hpeek
        exact ⟨rfl, Lexer.rest_of_next_eq_none hnext⟩

end Parser

/-- **A pragma is for the next module, and for no other.** In every text that is accepted, all
    that the lexer reads is the heads of modules one behind the other, and stretches behind them
    without the keyword of modules. The modules, at every depth and in the order of the walk, have
    the names of the heads: the identifier behind the body of the last `prefix` pragma that stands
    behind the name of the module before, if there is one with a quoted body that is not empty,
    and the identifier alone if there is none. -/
theorem Specification.moduleNames_of_ofText {dialect : Dialect} {cs : Text} {spec : Specification}
    (h : Specification.ofText dialect cs = .ok spec) :
    ∃ heads more, (Lexer.ofText dialect cs).Driven (Parser.stretchesOf heads more)
          (Parser.specification.run (.ofText dialect cs)).2.lexer ∧
      (Parser.stretchesOf heads more).flatMap Step.text = cs ∧
      (∀ head ∈ heads, head.Opens) ∧ (∀ t ∈ more.filterMap Step.token?, t.kind ≠ .keyword .module) ∧
      spec.events.filterMap Event.moduleName? = heads.map ModuleHead.fullName := by
  unfold Specification.ofText at h
  rcases hrun : Parser.specification.run (.ofText dialect cs) with ⟨r, u⟩
  rw [hrun] at h
  cases h
  obtain ⟨heads, more, htracks, hnames⟩ :=
    Parser.leads_specification (C := Parser.headsCourse) _ _ _ hrun _ _ _
      (Parser.tracks_ofText dialect cs)
  obtain ⟨hahead, hrest⟩ := Parser.rest_of_run_specification hrun
  obtain ⟨ts, hts, hnone⟩ := htracks.keyword
  have htext := htracks.driven.text_append
  rw [hrest, List.append_nil] at htext
  refine ⟨heads, more, htracks.driven, htext, htracks.opens, ?_, ?_⟩
  · rw [hts, hahead]
    exact List.forall_mem_append.2 ⟨hnone, List.forall_mem_nil _⟩
  · rw [hnames, Specification.events, filterMap_moduleName?_around rfl]
    rfl

/-- The second pragma stands behind the interface, and the third module has none. -/
theorem Specification.moduleNames_of_ofText_nested :
    ∃ heads more,
      (Lexer.ofText .omg ("#pragma prefix \"a\"\nmodule M \x7b interface I \x7b\x7d;\n" ++
          "#pragma prefix 'b' c\nmodule N \x7b\x7d; \x7d; module O \x7b\x7d;").toList).Driven
        (Parser.stretchesOf heads more)
        (Parser.specification.run
          (.ofText .omg ("#pragma prefix \"a\"\nmodule M \x7b interface I \x7b\x7d;\n" ++
          "#pragma prefix 'b' c\nmodule N \x7b\x7d; \x7d; module O \x7b\x7d;").toList)).2.lexer ∧
      heads.map ModuleHead.fullName = ["a.M".toList, "b.N".toList, "O".toList] := by
  have hok : Specification.ofText .omg
      ("#pragma prefix \"a\"\nmodule M \x7b interface I \x7b\x7d;\n" ++
        "#pragma prefix 'b' c\nmodule N \x7b\x7d; \x7d; module O \x7b\x7d;").toList =
      .ok ⟨[.module ⟨"a.M".toList, [.interface ⟨['I'], [], some [], some []⟩,
        .module ⟨"b.N".toList, []⟩]⟩, .module ⟨['O'], []⟩]⟩ := by
    decide +kernel
  obtain ⟨heads, more, hdriven, -, -, -, hnames⟩ := moduleNames_of_ofText hok
  exact ⟨heads, more, hdriven, hnames.symm⟩

end IdlFrontend
