import IdlFrontend.Proofs.Lexeme.Condensed
import IdlFrontend.Proofs.Macro.Hiding

/-!
# Expansion and the space between lexemes

Macros are invoked across space, comments and line feeds, arguments are cut at
parentheses and commas, and everything else is copied. Lexemes that are alike are
expanded to lexemes that are alike, or fail with the same error.

Results:

* `collectArguments_condense`, `bindArguments_condense`, `substitute_condense`: what an
  invocation is made of.
* `sweep_condense`: a pass over condensed lexemes.
* `matches_expand`: expanding lexemes that are alike.
* `expand_cons_blank`, `expand_append_blank`: blanks at the ends are not touched.
-/

namespace IdlFrontend.MacroTable

open Lexeme

/-! ## Invocations -/

theorem afterOpening?_condense (ts : List Lexeme) :
    afterOpening? (condense ts) = (afterOpening? ts).map condense := by
  rw [afterOpening?, afterOpening?, dropWhile_isBlank_condense]
  cases h : ts.dropWhile Lexeme.isBlank with
  | nil => rfl
  | cons t rest =>
    have ht : t.isBlank = false := by
      have := List.head?_dropWhile_not Lexeme.isBlank ts
      rw [h] at this
      simpa using this
    rw [condense_cons (isGap_of_not_isBlank ht)]
    cases hopen : t.isPunct '(' <;> simp [hopen]

namespace ArgumentList

/-- The argument list with condensed arguments, and what follows it condensed. -/
def condense (as : ArgumentList) : ArgumentList :=
  ⟨Lexeme.condense as.first, as.more.map Lexeme.condense, Lexeme.condense as.rest⟩

theorem values_condense (as : ArgumentList) :
    as.condense.values = as.values.map Lexeme.condense := by
  simp [values, condense, stripBlank_condense]

theorem condense_cons_of_condense {as bs : ArgumentList} (h : as.condense = bs.condense)
    (t : Lexeme) :
    (as.cons t).condense = (bs.cons t).condense := by
  obtain ⟨hfirst, hmore, hrest⟩ := ArgumentList.mk.inj h
  have hcons := condense_append (rfl : Lexeme.condense [t] = _) hfirst
  simp only [List.singleton_append] at hcons
  simp [condense, cons, hcons, hmore, hrest]

theorem condense_consEmpty (as : ArgumentList) :
    as.consEmpty.condense = as.condense.consEmpty := rfl

end ArgumentList

theorem collectArguments_gap {t : Lexeme} (h : t.isGap) (depth : Nat) (ts : List Lexeme) :
    collectArguments depth (t :: ts) = (collectArguments depth ts).map (.cons t) := by
  have hkind : t.kind ≠ .punctuation ∧ t.kind ≠ .newline := by
    rcases isGap_iff.1 h with h | h <;> rw [h] <;> decide
  have hpunct (c : Char) : t.isPunct c = false := by simp [isPunct, hkind.1]
  rw [collectArguments.eq_def]
  simp only [hpunct, if_neg hkind.2]
  rfl

theorem collectArguments_newline {t : Lexeme} (h : t.kind = .newline) (depth : Nat)
    (ts : List Lexeme) :
    collectArguments depth (t :: ts) =
      (collectArguments depth ts).map (.cons (spaceAt t.line)) := by
  have hpunct (c : Char) : t.isPunct c = false := by simp [isPunct, h]
  rw [collectArguments.eq_def]
  simp only [hpunct, if_pos h]
  rfl

theorem map_condense_congr {f : ArgumentList → ArgumentList} {x y : Option ArgumentList}
    (hf : ∀ as bs : ArgumentList, as.condense = bs.condense → (f as).condense = (f bs).condense)
    (h : x.map ArgumentList.condense = y.map ArgumentList.condense) :
    (x.map f).map ArgumentList.condense = (y.map f).map ArgumentList.condense := by
  cases x with
  | none => cases y with
    | none => rfl
    | some bs => cases h
  | some as => cases y with
    | none => cases h
    | some bs => exact congrArg some (hf as bs (Option.some.inj h))

/-- One gap may be put in the place of another, and left out at the end of a line. -/
theorem collectArguments_behindGap {t : Lexeme} (ht : t.isGap) (depth : Nat) (ts : List Lexeme) :
    (collectArguments depth (behindGap ts)).map ArgumentList.condense =
      (collectArguments depth (t :: ts)).map ArgumentList.condense := by
  have hgap {u : Lexeme} (hu : u.isGap) (as : ArgumentList) :
      ((as.cons u).cons t).condense = (as.cons u).condense := by
    simp [ArgumentList.condense, ArgumentList.cons, condense_cons_gap ht, condense_cons_gap hu]
  rcases behindGap_cases ts with ⟨u, us, rfl, hu, h⟩ | h
  · rw [h, collectArguments_gap ht]
    rcases hu with hu | hu
    · rw [collectArguments_gap (isGap_of_space hu), Option.map_map, Option.map_map, Option.map_map]
      congr 1
      funext as
      exact (hgap (isGap_of_space hu) as).symm
    · rw [collectArguments_newline hu, Option.map_map, Option.map_map, Option.map_map]
      congr 1
      funext as
      exact (hgap (isGap_spaceAt _) as).symm
  · rw [h, collectArguments_gap (isGap_spaceAt 0), collectArguments_gap ht, Option.map_map,
      Option.map_map]
    congr 1
    funext as
    simp [ArgumentList.condense, ArgumentList.cons, condense_cons_gap ht,
      condense_cons_gap (isGap_spaceAt 0)]

theorem collectArguments_condense (depth : Nat) (ts : List Lexeme) :
    (collectArguments depth (condense ts)).map ArgumentList.condense =
      (collectArguments depth ts).map ArgumentList.condense := by
  induction ts generalizing depth with
  | nil => rfl
  | cons t ts ih =>
    have hcons (depth : Nat) (u : Lexeme) := map_condense_congr (f := .cons u)
      (fun as bs h => ArgumentList.condense_cons_of_condense h u) (ih depth)
    cases ht : t.isGap with
    | true =>
      rw [condense_cons_gap ht, collectArguments_behindGap ht, collectArguments_gap ht,
        collectArguments_gap ht]
      exact hcons depth t
    | false =>
      rw [condense_cons ht, collectArguments.eq_def, collectArguments.eq_def]
      dsimp only
      split
      · exact hcons _ t
      split
      · cases depth with
        | zero => simp [ArgumentList.condense]
        | succ depth => exact hcons _ t
      split
      · refine map_condense_congr (fun as bs h => ?_) (ih depth)
        rw [ArgumentList.condense_consEmpty, ArgumentList.condense_consEmpty, h]
      · exact hcons _ _

theorem joinSurplus_condense (line : Nat) {args args' : List (List Lexeme)}
    (h : args.map condense = args'.map condense) :
    condense (joinSurplus line args) = condense (joinSurplus line args') := by
  induction args generalizing args' with
  | nil => rw [List.map_eq_nil_iff.1 h.symm]
  | cons a args ih =>
    obtain ⟨b, args', rfl⟩ : ∃ b bs, args' = b :: bs :=
      List.exists_cons_of_ne_nil fun hnil => by rw [hnil] at h; cases h
    rw [List.map_cons, List.map_cons, List.cons.injEq] at h
    have hrest := ih h.2
    cases args with
    | nil =>
      rw [List.map_eq_nil_iff.1 h.2.symm]
      simpa [joinSurplus] using h.1
    | cons c args =>
      obtain ⟨d, args', rfl⟩ : ∃ d ds, args' = d :: ds :=
        List.exists_cons_of_ne_nil fun hnil => by rw [hnil] at h; cases h.2
      simp only [joinSurplus, List.intercalate_cons_cons] at hrest ⊢
      exact condense_append (condense_append h.1 rfl) hrest

theorem bindArguments_condense (m : Macro) {args args' : List (List Lexeme)}
    (h : args.map condense = args'.map condense) (line : Nat) :
    (bindArguments m args line).map (List.map condense) =
      (bindArguments m args' line).map (List.map condense) := by
  have hlength : args.length = args'.length := by simpa using congrArg List.length h
  have hempty : (args == [[]]) = (args' == [[]]) := by
    have hnil (as : List (List Lexeme)) : as = [[]] ↔ as.map condense = [[]] := by
      cases as with
      | nil => simp
      | cons a as => simp [condense_eq_nil_iff]
    rw [Bool.eq_iff_iff, beq_iff_eq, beq_iff_eq, hnil, hnil args', h]
  unfold bindArguments
  rw [hlength, hempty]
  cases m.parameters with
  | none => rfl
  | fixed names =>
    dsimp only
    split
    · rfl
    split
    · exact congrArg Except.ok h
    · rfl
  | variadic leading rest =>
    dsimp only
    split
    · rfl
    · have htake := congrArg (List.take leading.length) h
      have hdrop := congrArg (List.drop leading.length) h
      simp only [← List.map_take, ← List.map_drop] at htake hdrop
      have hsurplus := joinSurplus_condense line hdrop
      simp [Except.map, htake, hsurplus]

theorem lookup_zip_map {α β : Type} (f : α → β) (names : List Text) (as : List α) (name : Text) :
    (names.zip (as.map f)).lookup name = ((names.zip as).lookup name).map f := by
  induction names generalizing as with
  | nil => rfl
  | cons n names ih =>
    cases as with
    | nil => rfl
    | cons a as =>
      rw [List.map_cons, List.zip_cons_cons, List.zip_cons_cons, List.lookup_cons,
        List.lookup_cons, ih]
      cases name == n <;> rfl

theorem substitute_condense (m : Macro) {args args' : List (List Lexeme)}
    (h : args.map condense = args'.map condense) (line : Nat) :
    condense (substitute m args line) = condense (substitute m args' line) := by
  have hlookup (name : Text) : ((m.parameters.names.zip args).lookup name).map condense =
      ((m.parameters.names.zip args').lookup name).map condense := by
    rw [← lookup_zip_map, h, lookup_zip_map]
  unfold substitute
  induction m.body with
  | nil => rfl
  | cons t body ih =>
    rw [List.flatMap_cons, List.flatMap_cons]
    refine condense_append ?_ ih
    by_cases hword : t.kind = .word
    · have hfound := hlookup t.text
      simp only [if_pos hword]
      generalize (m.parameters.names.zip args).lookup t.text = x at hfound ⊢
      generalize (m.parameters.names.zip args').lookup t.text = y at hfound ⊢
      cases x with
      | none => cases y with
        | none => rfl
        | some b => cases hfound
      | some a => cases y with
        | none => cases hfound
        | some b => exact condense_restamp line (Option.some.inj hfound)
    · simp only [if_neg hword]

/-! ## Results that are alike -/

/-- Both results are the same error, or lexemes that are alike. -/
def Matches (r r' : Except PreprocessError (List Lexeme)) : Prop := r.map condense = r'.map condense

section Matches

variable {r r' : Except PreprocessError (List Lexeme)}

theorem Matches.append (h : Matches r r') {ts us : List Lexeme} (hts : condense ts = condense us) :
    Matches (r.map (ts ++ ·)) (r'.map (us ++ ·)) := by
  cases r with
  | error e => cases r' with
    | error e' => exact h
    | ok vs => cases h
  | ok vs => cases r' with
    | error e' => cases h
    | ok ws => exact congrArg Except.ok (condense_append hts (Except.ok.inj h))

theorem Matches.cons (h : Matches r r') (t : Lexeme) : Matches (r.map (t :: ·)) (r'.map (t :: ·)) :=
  h.append (rfl : condense [t] = _)

theorem Matches.bind (h : Matches r r')
    {f f' : List Lexeme → Except PreprocessError (List Lexeme)}
    (hf : ∀ ts us, condense ts = condense us → Matches (f ts) (f' us)) :
    Matches (r >>= f) (r' >>= f') := by
  cases r with
  | error e => cases r' with
    | error e' => exact h
    | ok vs => cases h
  | ok vs => cases r' with
    | error e' => cases h
    | ok ws => exact hf vs ws (Except.ok.inj h)

theorem matches_mapM {f : List Lexeme → Except PreprocessError (List Lexeme)}
    {as bs : List (List Lexeme)} (h : as.map condense = bs.map condense)
    (hf : ∀ a ∈ as, ∀ b ∈ bs, condense a = condense b → Matches (f a) (f b)) :
    (as.mapM f).map (List.map condense) = (bs.mapM f).map (List.map condense) := by
  induction as generalizing bs with
  | nil => rw [List.map_eq_nil_iff.1 h.symm]
  | cons a as ih =>
    obtain ⟨b, bs, rfl⟩ : ∃ c cs, bs = c :: cs :=
      List.exists_cons_of_ne_nil fun hnil => by rw [hnil] at h; cases h
    rw [List.map_cons, List.map_cons, List.cons.injEq] at h
    have hfirst := hf a List.mem_cons_self b List.mem_cons_self h.1
    have hrest := ih h.2 fun c hc d hd =>
      hf c (List.mem_cons_of_mem _ hc) d (List.mem_cons_of_mem _ hd)
    have hstep (x : Except PreprocessError (List Lexeme))
        (xs : Except PreprocessError (List (List Lexeme))) :
        (do let r ← x; let rs ← xs; pure (r :: rs)).map (List.map condense) =
          (do let r ← x.map condense; let rs ← xs.map (List.map condense); pure (r :: rs)) := by
      cases x <;> cases xs <;> rfl
    rw [List.mapM_cons, List.mapM_cons, hstep, hstep, hrest,
      show (f a).map condense = _ from hfirst]

theorem matches_bind {x y : Except PreprocessError (List (List Lexeme))}
    (h : x.map (List.map condense) = y.map (List.map condense))
    {f g : List (List Lexeme) → Except PreprocessError (List Lexeme)}
    (hfg : ∀ as bs, x = .ok as → y = .ok bs → as.map condense = bs.map condense →
      Matches (f as) (g bs)) : Matches (x >>= f) (y >>= g) := by
  cases x with
  | error e => cases y with
    | error e' =>
      cases h
      rfl
    | ok bs => cases h
  | ok as => cases y with
    | error e' => cases h
    | ok bs => exact hfg as bs rfl rfl (Except.ok.inj h)

end Matches

/-! ## Expansion -/

section Sweep

variable {table : MacroTable} {hidden : List Text}
  {rescan : Text → List Lexeme → Except PreprocessError (List Lexeme)}

theorem sweep_blank {t : Lexeme} (h : t.isBlank) (ts : List Lexeme) :
    sweep table hidden rescan (t :: ts) = (sweep table hidden rescan ts).map (t :: ·) := by
  have hword : t.kind ≠ .word := by
    rcases kind_of_isBlank h with h | h | h <;> rw [h] <;> decide
  rw [sweep_cons, if_pos (Or.inl hword)]

theorem sweep_behindGap {t : Lexeme} (ht : t.isGap) (ts : List Lexeme) :
    Matches (sweep table hidden rescan (behindGap ts)) (sweep table hidden rescan (t :: ts)) := by
  rw [sweep_blank (isBlank_of_isGap ht)]
  rcases behindGap_cases ts with ⟨u, us, rfl, hu, h⟩ | h
  · rw [h, sweep_blank (by rcases hu with hu | hu <;> simp [Lexeme.isBlank, hu])]
    cases sweep table hidden rescan us with
    | error e => rfl
    | ok vs =>
      refine congrArg Except.ok ?_
      rw [condense_cons_gap ht]
      rcases hu with hu | hu
      · rw [condense_cons_gap (isGap_of_space hu), behindGap_behindGap]
      · rw [condense_cons (isGap_of_newline hu), behindGap_newline hu]
  · rw [h, sweep_blank rfl]
    cases sweep table hidden rescan ts with
    | error e => rfl
    | ok vs =>
      refine congrArg Except.ok ?_
      rw [condense_cons_gap ht, condense_cons_gap (isGap_spaceAt 0)]

/-- A pass over lexemes that are alike ends in the same way. -/
theorem sweep_condense
    (hrescan : ∀ name ts us, condense ts = condense us → Matches (rescan name ts) (rescan name us))
    (ts : List Lexeme) :
    Matches (sweep table hidden rescan (condense ts)) (sweep table hidden rescan ts) := by
  induction hn : ts.length using Nat.strongRecOn generalizing ts with
  | _ n ih =>
  cases ts with
  | nil => rfl
  | cons t ts =>
  rw [List.length_cons] at hn
  have hsame {us vs : List Lexeme} (hus : us.length < n) (hvs : vs.length < n)
      (h : condense us = condense vs) :
      Matches (sweep table hidden rescan us) (sweep table hidden rescan vs) :=
    (ih us.length hus us rfl).symm.trans (h ▸ ih vs.length hvs vs rfl)
  have hrest := ih ts.length (by omega) ts rfl
  cases ht : t.isGap with
  | true =>
    rw [condense_cons_gap ht]
    refine (sweep_behindGap ht _).trans ?_
    rw [sweep_blank (isBlank_of_isGap ht), sweep_blank (isBlank_of_isGap ht)]
    exact hrest.cons t
  | false =>
    rw [condense_cons ht, sweep_cons, sweep_cons]
    split
    · exact hrest.cons t
    split
    · split
      · exact hrest.cons _
      · exact hrest.cons t
    next m hfind =>
    split
    · refine Matches.bind rfl fun us vs h => ?_
      exact hrest.append h
    rw [afterOpening?_condense]
    cases hopen : afterOpening? ts with
    | none => exact hrest.cons t
    | some inner =>
    have hcollect := collectArguments_condense 0 inner
    dsimp only [Option.map_some]
    cases hargs : collectArguments 0 inner with
    | none =>
      rw [hargs, Option.map_none, Option.map_eq_none_iff] at hcollect
      rw [hcollect]
      rfl
    | some args =>
    obtain ⟨args', hargs', hcondense⟩ : ∃ args', collectArguments 0 (condense inner) = some args' ∧
        args'.condense = args.condense := by
      rw [hargs] at hcollect
      exact Option.map_eq_some_iff.1 hcollect
    rw [hargs']
    dsimp only
    have hvalues : args'.values.map condense = args.values.map condense := by
      rw [← ArgumentList.values_condense, hcondense, ArgumentList.values_condense]
    refine matches_bind (bindArguments_condense m hvalues t.line)
      fun bound' bound hbound' hbound heq => ?_
    obtain ⟨hlt, hltRest⟩ := length_of_invocation hopen hargs hbound
    obtain ⟨hlt', hltRest'⟩ := length_of_invocation (by rw [afterOpening?_condense, hopen]; rfl)
      hargs' hbound'
    have hle := length_condense_le ts
    have hexpand (a : List Lexeme) (ha : a ∈ bound') (b : List Lexeme) (hb : b ∈ bound) :=
      @hsame a b (Nat.lt_of_lt_of_le (hlt' a ha) (by omega))
        (Nat.lt_of_lt_of_le (hlt b hb) (by omega))
    refine matches_bind (matches_mapM heq hexpand) fun expanded' expanded _ _ hexpanded => ?_
    refine Matches.bind (hrescan _ _ _ (substitute_condense m hexpanded t.line)) fun us vs h => ?_
    have hbehind : condense args'.rest = condense args.rest :=
      (ArgumentList.mk.inj hcondense).2.2
    exact (hsame (by omega) (by omega) hbehind).append h

theorem matches_sweep
    (hrescan : ∀ name ts us, condense ts = condense us → Matches (rescan name ts) (rescan name us))
    {ts us : List Lexeme} (h : condense ts = condense us) :
    Matches (sweep table hidden rescan ts) (sweep table hidden rescan us) :=
  (sweep_condense hrescan ts).symm.trans (h ▸ sweep_condense hrescan us)

end Sweep

theorem matches_expandHiding (table : MacroTable) (levels : Nat) (hidden : List Text)
    {ts us : List Lexeme} (h : condense ts = condense us) :
    Matches (expandHiding table levels hidden ts) (expandHiding table levels hidden us) := by
  induction levels generalizing hidden ts us with
  | zero =>
    refine matches_sweep (fun _ ts us h => ?_) h
    exact congrArg Except.ok h
  | succ levels ih => exact matches_sweep (fun name _ _ h => ih (name :: hidden) h) h

/-- **Expansion does not look at the space between lexemes.** Lexemes that are alike have
    expansions that are alike, or the same error. -/
theorem matches_expand (table : MacroTable) {ts us : List Lexeme} (h : condense ts = condense us) :
    Matches (table.expand ts) (table.expand us) :=
  matches_expandHiding table _ [] h

/-! ## Blanks at the ends -/

section Trailing

variable {table : MacroTable} {hidden : List Text}
  {rescan : Text → List Lexeme → Except PreprocessError (List Lexeme)} {blanks : List Lexeme}

theorem afterOpening?_append_blank (h : ∀ b ∈ blanks, b.isBlank) (ts : List Lexeme) :
    afterOpening? (ts ++ blanks) = (afterOpening? ts).map (· ++ blanks) := by
  rw [afterOpening?, afterOpening?, List.dropWhile_append]
  cases hts : ts.dropWhile Lexeme.isBlank with
  | nil =>
    rw [List.isEmpty_nil, if_pos rfl, List.dropWhile_eq_nil_iff.2 h]
    rfl
  | cons t ts =>
    rw [List.isEmpty_cons, if_neg Bool.false_ne_true, List.cons_append]
    cases hopen : t.isPunct '(' <;> simp [hopen]

theorem collectArguments_blank (h : ∀ b ∈ blanks, b.isBlank) (depth : Nat) :
    collectArguments depth blanks = none := by
  induction blanks with
  | nil => rfl
  | cons b blanks ih =>
    obtain ⟨hb, h⟩ := List.forall_mem_cons.1 h
    rcases kind_of_isBlank hb with hb | hb
    · rw [collectArguments_newline hb, ih h]
      rfl
    · rw [collectArguments_gap (isGap_iff.2 hb), ih h]
      rfl

/-- What is collected does not reach into the blanks at the end. -/
theorem collectArguments_append_blank (h : ∀ b ∈ blanks, b.isBlank) (depth : Nat)
    (ts : List Lexeme) :
    collectArguments depth (ts ++ blanks) =
      (collectArguments depth ts).map fun as => { as with rest := as.rest ++ blanks } := by
  fun_induction collectArguments depth ts with
  | case1 depth => exact collectArguments_blank h depth
  | case2 depth t ts hopen ih =>
    rw [List.cons_append, collectArguments.eq_def]
    simp only [if_pos hopen, ih, Option.map_map]
    rfl
  | case3 t ts hopen hclose =>
    rw [List.cons_append, collectArguments.eq_def]
    simp only [if_neg hopen, if_pos hclose]
    rfl
  | case4 t ts hopen hclose depth ih =>
    rw [List.cons_append, collectArguments.eq_def]
    simp only [if_neg hopen, if_pos hclose, ih, Option.map_map]
    rfl
  | case5 depth t ts hopen hclose hcomma ih =>
    rw [List.cons_append, collectArguments.eq_def]
    simp only [if_neg hopen, if_neg hclose, if_pos hcomma, ih, Option.map_map]
    rfl
  | case6 depth t ts hopen hclose hcomma ih =>
    rw [List.cons_append, collectArguments.eq_def]
    simp only [if_neg hopen, if_neg hclose, if_neg hcomma, ih, Option.map_map]
    rfl

theorem map_bind_except {ε α β γ : Type} (r : Except ε α) (f : α → Except ε β) (g : β → γ) :
    (r >>= f).map g = r >>= fun a => (f a).map g := by
  cases r <;> rfl

theorem map_append_map_append (r : Except PreprocessError (List Lexeme)) (ts us : List Lexeme) :
    (r.map (· ++ us)).map (ts ++ ·) = (r.map (ts ++ ·)).map (· ++ us) := by
  cases r with
  | error e => rfl
  | ok vs => exact congrArg Except.ok (List.append_assoc ts vs us).symm

theorem sweep_append_blank (h : ∀ b ∈ blanks, b.isBlank) (ts : List Lexeme) :
    sweep table hidden rescan (ts ++ blanks) =
      (sweep table hidden rescan ts).map (· ++ blanks) := by
  induction ts using sweep_induction with
  | nil =>
    rw [List.nil_append, sweep]
    induction blanks with
    | nil => rw [sweep]; rfl
    | cons b blanks ih =>
      obtain ⟨hb, h⟩ := List.forall_mem_cons.1 h
      rw [sweep_blank hb, ih h]
      rfl
  | cons t ts ih hinvocation =>
    have hkeep (u : Lexeme) : (sweep table hidden rescan (ts ++ blanks)).map (u :: ·) =
        ((sweep table hidden rescan ts).map (u :: ·)).map (· ++ blanks) := by
      rw [ih]
      exact map_append_map_append _ [u] blanks
    rw [List.cons_append, sweep_cons, sweep_cons]
    split
    · exact hkeep t
    split
    · split
      · exact hkeep _
      · exact hkeep t
    next m hfind =>
    split
    · rw [map_bind_except]
      refine bind_congr_of_ok fun body _ => ?_
      rw [ih]
      exact map_append_map_append _ body blanks
    rw [afterOpening?_append_blank h]
    cases hopen : afterOpening? ts with
    | none => exact hkeep t
    | some inner =>
    dsimp only [Option.map_some]
    rw [collectArguments_append_blank h]
    cases hargs : collectArguments 0 inner with
    | none => rfl
    | some args =>
    dsimp only [Option.map_some]
    rw [map_bind_except]
    refine bind_congr_of_ok fun bound hbound => ?_
    rw [map_bind_except]
    refine bind_congr_of_ok fun expanded _ => ?_
    rw [map_bind_except]
    refine bind_congr_of_ok fun body _ => ?_
    rw [(hinvocation m inner args bound hopen hargs hbound).2]
    exact map_append_map_append _ body blanks

/-- A blank in front remains in front. -/
theorem expand_cons_blank (table : MacroTable) {t : Lexeme} (h : t.isBlank) (ts : List Lexeme) :
    table.expand (t :: ts) = (table.expand ts).map (t :: ·) := by
  rw [expand, expand]
  cases table.macros.length with
  | zero => exact sweep_blank h ts
  | succ levels => exact sweep_blank h ts

/-- Blanks at the end remain at the end. -/
theorem expand_append_blank (table : MacroTable) (h : ∀ b ∈ blanks, b.isBlank) (ts : List Lexeme) :
    table.expand (ts ++ blanks) = (table.expand ts).map (· ++ blanks) := by
  rw [expand, expand]
  cases table.macros.length with
  | zero => exact sweep_append_blank h ts
  | succ levels => exact sweep_append_blank h ts

end Trailing

end IdlFrontend.MacroTable
