import IdlFrontend.Proofs.Lexeme.Condensed

/-!
# Definitions and the space between lexemes

A definition keeps the space in the body of its macro, each comment as one space. Blanks in
front of the body, and behind it, are dropped.

Results:

* `define_map`: a definition depends on kinds and texts, and on the body as it is stored.
* `define_append_gap`: blanks in front of the body of a macro may be replaced by others.
-/

namespace IdlFrontend

namespace Lexeme

/-! ## Blanks at the ends -/

section Blanks

variable {gap : List Lexeme}

theorem dropWhile_isBlank_append (h : ∀ t ∈ gap, t.isBlank) (ts : List Lexeme) :
    (gap ++ ts).dropWhile isBlank = ts.dropWhile isBlank := by
  rw [List.dropWhile_append, List.dropWhile_eq_nil_iff.2 h]
  rfl

theorem stripBlank_blank_append (h : ∀ t ∈ gap, t.isBlank) (ts : List Lexeme) :
    stripBlank (gap ++ ts) = stripBlank ts := by
  rw [stripBlank, dropWhile_isBlank_append h, stripBlank]

theorem rdropWhile_isBlank_append {us : List Lexeme} (h : us.rdropWhile isBlank ≠ [])
    (ts : List Lexeme) : (ts ++ us).rdropWhile isBlank = ts ++ us.rdropWhile isBlank := by
  induction ts with
  | nil => rfl
  | cons t ts ih =>
    rw [List.cons_append, rdropWhile_isBlank_cons_of_ne_nil, ih, List.cons_append]
    rw [ih]
    exact List.append_ne_nil_of_right_ne_nil _ h

theorem rdropWhile_isBlank_append_blank {us : List Lexeme} (h : ∀ t ∈ us, t.isBlank)
    (ts : List Lexeme) :
    (ts ++ us).rdropWhile isBlank = ts.rdropWhile isBlank := by
  rw [List.rdropWhile, List.rdropWhile, List.reverse_append,
    List.dropWhile_append_of_pos fun t ht => h t (List.mem_reverse.1 ht)]

/-- Blanks at the end of lexemes are stripped together with those behind them. -/
theorem stripBlank_append_blank {us : List Lexeme} (h : ∀ t ∈ us, t.isBlank) (ts : List Lexeme) :
    stripBlank (ts ++ us) = stripBlank ts := by
  rw [stripBlank_eq, stripBlank_eq, List.dropWhile_append]
  split
  next hnil =>
    rw [List.isEmpty_iff.1 hnil, List.dropWhile_eq_nil_iff.2 h]
  · exact rdropWhile_isBlank_append_blank h _

theorem stripBlank_rdropWhile (ts : List Lexeme) :
    stripBlank (ts.rdropWhile isBlank) = stripBlank ts := by
  have hback : ∀ t ∈ ts.rtakeWhile isBlank, t.isBlank := fun t ht => List.mem_rtakeWhile_imp ht
  rw [← stripBlank_append_blank hback, List.rdropWhile_append_rtakeWhile]

theorem isBlank_of_mem_head?_stripBlank (ts : List Lexeme) :
    ∀ t ∈ (stripBlank ts).head?, t.isBlank = false := by
  intro t ht
  obtain ⟨back, hback⟩ := List.rdropWhile_prefix isBlank (l := ts.dropWhile isBlank)
  have hfirst := List.head?_dropWhile_not isBlank ts
  rw [← hback, ← stripBlank_eq, List.head?_append, Option.mem_def.1 ht] at hfirst
  simpa using hfirst

theorem stripBlank_stripBlank (ts : List Lexeme) : stripBlank (stripBlank ts) = stripBlank ts := by
  have hdrop : (stripBlank ts).dropWhile isBlank = stripBlank ts := by
    rw [List.dropWhile_eq_self_iff]
    intro hpos hblank
    have := isBlank_of_mem_head?_stripBlank ts _
      (List.head?_eq_getElem? ▸ List.getElem?_eq_getElem hpos)
    rw [this] at hblank
    cases hblank
  rw [stripBlank_eq (stripBlank ts), hdrop, stripBlank_eq, List.rdropWhile_idempotent]

/-- Stripped lexemes, with the blanks that stood behind them in front of what follows. -/
theorem exists_stripBlank_append (ts : List Lexeme) :
    ∃ blanks, (∀ t ∈ blanks, t.isBlank) ∧
      ∀ us, stripBlank (ts ++ us) = stripBlank (stripBlank ts ++ (blanks ++ us)) := by
  refine ⟨(ts.dropWhile isBlank).rtakeWhile isBlank,
    fun t ht => List.mem_rtakeWhile_imp ht, fun us => ?_⟩
  have hfront : ∀ t ∈ ts.takeWhile isBlank, t.isBlank := fun t ht => List.mem_takeWhile_imp ht
  rw [stripBlank_eq ts, ← List.append_assoc, List.rdropWhile_append_rtakeWhile]
  conv_lhs => rw [← List.takeWhile_append_dropWhile (p := isBlank) (l := ts)]
  rw [List.append_assoc, stripBlank_blank_append hfront]

end Blanks

/-- What is done to lexemes without changing what a definition looks at: which are blank,
    which are marks, and which are words. -/
structure KeepsShape (f : Lexeme → Lexeme) : Prop where
  isBlank : ∀ t, (f t).isBlank = t.isBlank
  isPunct : ∀ t c, (f t).isPunct c = t.isPunct c
  isWord : ∀ t, (f t).kind = .word ↔ t.kind = .word
  text : ∀ t : Lexeme, t.kind = .word → (f t).text = t.text

/-- A comment counts as a space. -/
def asSpace (t : Lexeme) : Lexeme := if t.kind = .comment then spaceAt t.line else t

/-- What changes blanks only, and to blanks, keeps the shape. -/
theorem keepsShape_of_blank {f : Lexeme → Lexeme} (hblank : ∀ t : Lexeme, t.isBlank → (f t).isBlank)
    (hother : ∀ t : Lexeme, t.isBlank = false → f t = t) : KeepsShape f := by
  have hkinds {t : Lexeme} (h : t.isBlank) (c : Char) : t.isPunct c = false ∧ t.kind ≠ .word := by
    rcases kind_of_isBlank h with hkind | hkind | hkind <;> simp [isPunct, hkind]
  refine ⟨fun t => ?_, fun t c => ?_, fun t => ?_, fun t hword => ?_⟩ <;>
    cases ht : t.isBlank
  case refine_1.false => rw [hother t ht, ht]
  case refine_1.true => exact hblank t ht
  case refine_2.false => rw [hother t ht]
  case refine_2.true => rw [(hkinds (hblank t ht) c).1, (hkinds ht c).1]
  case refine_3.false => rw [hother t ht]
  case refine_3.true => exact iff_of_false (hkinds (hblank t ht) ' ').2 (hkinds ht ' ').2
  case refine_4.false => rw [hother t ht]
  case refine_4.true => exact absurd hword (hkinds ht ' ').2

theorem keepsShape_asSpace : KeepsShape asSpace := by
  refine keepsShape_of_blank (fun t ht => ?_) (fun t ht => ?_)
  · by_cases h : t.kind = .comment
    · rw [asSpace, if_pos h]
      rfl
    · rw [asSpace, if_neg h]
      exact ht
  · exact if_neg (isBlank_eq_false_iff.1 ht).2.2

variable {f : Lexeme → Lexeme}

theorem dropWhile_isBlank_map (hf : KeepsShape f) (ts : List Lexeme) :
    (ts.map f).dropWhile isBlank = (ts.dropWhile isBlank).map f := by
  rw [List.dropWhile_map]
  congr 2
  exact funext hf.isBlank

theorem stripBlank_map (hf : KeepsShape f) (ts : List Lexeme) :
    stripBlank (ts.map f) = (stripBlank ts).map f := by
  rw [stripBlank, stripBlank, dropWhile_isBlank_map hf, ← List.map_reverse,
    dropWhile_isBlank_map hf, List.map_reverse]

end Lexeme

namespace MacroTable

open Lexeme

variable {f : Lexeme → Lexeme}

/-! ## What a definition depends on -/

theorem afterEllipsis?_map (hf : KeepsShape f) (ts : List Lexeme) :
    afterEllipsis? (ts.map f) = (afterEllipsis? ts).map (List.map f) := by
  match ts with
  | [] | [_] | [_, _] => rfl
  | a :: b :: c :: rest =>
    simp only [List.map_cons, afterEllipsis?, hf.isPunct]
    split <;> rfl

theorem afterClosing?_map (hf : KeepsShape f) (ts : List Lexeme) :
    afterClosing? (ts.map f) = (afterClosing? ts).map (List.map f) := by
  rw [afterClosing?, afterClosing?, dropWhile_isBlank_map hf]
  cases ts.dropWhile Lexeme.isBlank with
  | nil => rfl
  | cons t rest =>
    simp only [List.map_cons, hf.isPunct]
    split <;> rfl

theorem readParameters_map (hf : KeepsShape f) (names : List Text) (last : Option Text)
    (ts : List Lexeme) :
    readParameters names last (ts.map f) =
      (readParameters names last ts).map fun r => (r.1, r.2.map f) := by
  induction ts generalizing names last with
  | nil => rfl
  | cons t ts ih =>
    rw [List.map_cons, readParameters.eq_def names last (f t :: ts.map f),
      readParameters.eq_def names last (t :: ts)]
    dsimp only
    rw [hf.isBlank, hf.isPunct, ← List.map_cons, afterEllipsis?_map hf]
    split
    · exact ih names last
    split
    · cases last with
      | some name => rfl
      | none =>
        dsimp only
        split <;> rfl
    cases afterEllipsis? (t :: ts) with
    | some rest =>
      simp only [Option.map_some, afterClosing?_map hf, Option.map_map]
      rfl
    | none =>
      cases last with
      | none =>
        simp only [Option.map_none, hf.isWord]
        split
        next hword => rw [hf.text t hword, ih]
        · rfl
      | some name =>
        simp only [Option.map_none, hf.isPunct]
        split
        · exact ih _ _
        · rfl

/-- A definition looks at blanks, marks and words, and stores the lexemes of the body. -/
theorem readDefinition_map {g : Lexeme → Lexeme} (hf : KeepsShape f)
    (hbody : ∀ t, bodyLexeme (f t) = g (bodyLexeme t)) (args : List Lexeme) :
    readDefinition (args.map f) =
      (readDefinition args).map fun m => { m with body := m.body.map g } := by
  have hstored (body : List Lexeme) :
      (stripBlank (body.map f)).map bodyLexeme = ((stripBlank body).map bodyLexeme).map g := by
    rw [stripBlank_map hf, List.map_map, List.map_map]
    exact List.map_congr_left fun t _ => hbody t
  rw [readDefinition, readDefinition, stripBlank_map hf]
  cases stripBlank args with
  | nil => rfl
  | cons name rest =>
    rw [List.map_cons]
    dsimp only
    by_cases hword : name.kind = .word
    · rw [if_neg (by simpa [hf.isWord] using hword), if_neg (by simpa using hword),
        hf.text name hword]
      cases rest with
      | nil => rfl
      | cons t ts =>
        rw [List.map_cons]
        dsimp only
        rw [hf.isPunct, readParameters_map hf]
        split
        · cases readParameters [] none ts with
          | none => rfl
          | some r => simp only [Option.map_some, hstored, Except.map]
        · rw [← List.map_cons, hstored, Except.map]
    · rw [if_pos (by simpa [hf.isWord] using hword), if_pos hword, Except.map]

theorem define_map (hf : KeepsShape f) (hbody : ∀ t, bodyLexeme (f t) = bodyLexeme t)
    (table : MacroTable) (args : List Lexeme) (line : Nat) :
    table.define (args.map f) line = table.define args line := by
  have hread : readDefinition (args.map f) = readDefinition args := by
    rw [readDefinition_map (g := id) hf hbody]
    simp only [List.map_id]
    exact congrFun Except.map_id (readDefinition args)
  rw [define_eq, define_eq, hread]

theorem define_map_asSpace (table : MacroTable) (args : List Lexeme) (line : Nat) :
    table.define (args.map asSpace) line = table.define args line := by
  refine define_map keepsShape_asSpace (fun t => ?_) table args line
  by_cases h : t.kind = .comment
  · rw [asSpace, if_pos h, bodyLexeme, bodyLexeme, if_pos (Or.inl h)]
    rfl
  · rw [asSpace, if_neg h]

theorem define_stripBlank (table : MacroTable) (args : List Lexeme) (line : Nat) :
    table.define (stripBlank args) line = table.define args line := by
  rw [define, define, stripBlank_stripBlank]

/-! ## Blanks in front of a body -/

/-- What lexemes behind a `#define` already give of the body of the macro. -/
def bodyOf : List Lexeme → List Lexeme
  | _ :: t :: ts =>
    if t.isPunct '(' then ((readParameters [] none ts).map Prod.snd).getD [] else t :: ts
  | _ => []

variable {gap gap' : List Lexeme}

theorem readParameters_of_isBlank {t : Lexeme} (h : t.isBlank) (names : List Text)
    (last : Option Text) (ts : List Lexeme) :
    readParameters names last (t :: ts) = readParameters names last ts := by
  rw [readParameters.eq_def]
  exact if_pos h

theorem readParameters_blank_append (h : ∀ t ∈ gap, t.isBlank) (names : List Text)
    (last : Option Text) (ts : List Lexeme) :
    readParameters names last (gap ++ ts) = readParameters names last ts := by
  induction gap with
  | nil => rfl
  | cons t gap ih =>
    obtain ⟨ht, h⟩ := List.forall_mem_cons.1 h
    rw [List.cons_append, readParameters_of_isBlank ht, ih h]

theorem afterClosing?_append {ts rest : List Lexeme} (h : afterClosing? ts = some rest)
    (us : List Lexeme) : afterClosing? (ts ++ us) = some (rest ++ us) := by
  unfold afterClosing? at h ⊢
  rw [List.dropWhile_append]
  split at h
  next t after heq =>
    rw [heq]
    split at h
    next hclose =>
      cases h
      rw [List.isEmpty_cons, if_neg Bool.false_ne_true]
      exact if_pos hclose
    · cases h
  · cases h

theorem afterEllipsis?_eq_some_iff {ts rest : List Lexeme} : afterEllipsis? ts = some rest ↔
    ∃ a b c, ts = a :: b :: c :: rest ∧ a.isPunct '.' ∧ b.isPunct '.' ∧ c.isPunct '.' := by
  constructor
  · intro h
    unfold afterEllipsis? at h
    split at h
    next a b c more =>
      split at h
      next hdots =>
        cases h
        simp only [Bool.and_eq_true] at hdots
        exact ⟨a, b, c, rfl, hdots.1.1, hdots.1.2, hdots.2⟩
      · cases h
    · cases h
  · rintro ⟨a, b, c, rfl, ha, hb, hc⟩
    simp [afterEllipsis?, ha, hb, hc]

theorem afterEllipsis?_append {ts rest : List Lexeme} (h : afterEllipsis? ts = some rest)
    (us : List Lexeme) : afterEllipsis? (ts ++ us) = some (rest ++ us) := by
  obtain ⟨a, b, c, rfl, ha, hb, hc⟩ := afterEllipsis?_eq_some_iff.1 h
  exact afterEllipsis?_eq_some_iff.2 ⟨a, b, c, rfl, ha, hb, hc⟩

/-- Dots with a gap between them are no ellipsis. -/
theorem afterEllipsis?_append_gap {ts : List Lexeme} (h : afterEllipsis? ts = none) {t : Lexeme}
    (ht : t.isBlank) (us : List Lexeme) : afterEllipsis? (ts ++ t :: us) = none := by
  have hdot : ¬t.isPunct '.' := fun hdot => by rw [isBlank_of_isPunct hdot] at ht; cases ht
  rw [Option.eq_none_iff_forall_ne_some]
  intro rest hsome
  obtain ⟨a, b, c, heq, ha, hb, hc⟩ := afterEllipsis?_eq_some_iff.1 hsome
  clear hsome
  match ts with
  | [] => exact hdot ((List.cons.inj heq).1 ▸ ha)
  | [_] => exact hdot ((List.cons.inj (List.cons.inj heq).2).1 ▸ hb)
  | [_, _] => exact hdot ((List.cons.inj (List.cons.inj (List.cons.inj heq).2).2).1 ▸ hc)
  | x :: y :: z :: more =>
    obtain ⟨hx, heq⟩ := List.cons.inj heq
    obtain ⟨hy, heq⟩ := List.cons.inj heq
    obtain ⟨hz, -⟩ := List.cons.inj heq
    rw [afterEllipsis?_eq_some_iff.2 ⟨x, y, z, rfl, hx ▸ ha, hy ▸ hb, hz ▸ hc⟩] at h
    cases h

theorem afterEllipsis?_cons_of_not_dot {t : Lexeme} (h : t.isPunct '.' = false) (ts : List Lexeme) :
    afterEllipsis? (t :: ts) = none := by
  rw [Option.eq_none_iff_forall_ne_some]
  intro rest hsome
  obtain ⟨a, b, c, heq, ha, -⟩ := afterEllipsis?_eq_some_iff.1 hsome
  rw [(List.cons.inj heq).1, ha] at h
  cases h

/-- A lexeme of a parameter list is passed, or closes the list, or else it begins an
    ellipsis or nothing at all. -/
theorem readParameters_cases (names : List Text) (last : Option Text) (t : Lexeme) :
    (∃ names' last', ∀ ts, readParameters names last (t :: ts) = readParameters names' last' ts) ∨
    (∃ parameters : Option Parameters, ∀ ts, readParameters names last (t :: ts) = parameters.map
      (·, ts)) ∨
    ∀ ts, readParameters names last (t :: ts) =
      ((afterEllipsis? (t :: ts)).bind afterClosing?).map
        (.variadic names (last.getD variadicName), ·) := by
  by_cases hblank : t.isBlank
  · exact Or.inl ⟨names, last, readParameters_of_isBlank hblank names last⟩
  by_cases hclose : t.isPunct ')'
  · refine Or.inr (Or.inl ?_)
    cases last with
    | some name =>
      refine ⟨some (.fixed (names ++ [name])), fun ts => ?_⟩
      rw [readParameters.eq_def]
      simp only [if_neg hblank, if_pos hclose, Option.map_some]
    | none =>
      refine ⟨if names.isEmpty then some (.fixed []) else none, fun ts => ?_⟩
      rw [readParameters.eq_def]
      simp only [if_neg hblank, if_pos hclose]
      split <;> rfl
  have hother (ts : List Lexeme) : readParameters names last (t :: ts) = _ :=
    (readParameters.eq_def names last (t :: ts)).trans ((if_neg hblank).trans (if_neg hclose))
  by_cases hword : last = none ∧ t.kind = .word
  · obtain ⟨rfl, hword⟩ := hword
    refine Or.inl ⟨names, some t.text, fun ts => ?_⟩
    have hdot : t.isPunct '.' = false := by simp [isPunct, hword]
    rw [hother, afterEllipsis?_cons_of_not_dot hdot]
    exact if_pos hword
  by_cases hcomma : last.isSome ∧ t.isPunct ','
  · obtain ⟨hlast, hcomma⟩ := hcomma
    obtain ⟨name, rfl⟩ := Option.isSome_iff_exists.1 hlast
    refine Or.inl ⟨names ++ [name], none, fun ts => ?_⟩
    have hdot : t.isPunct '.' = false := by
      rw [isPunct, Bool.and_eq_true, beq_iff_eq, beq_iff_eq] at hcomma
      rw [isPunct, hcomma.1, hcomma.2]
      rfl
    rw [hother, afterEllipsis?_cons_of_not_dot hdot]
    exact if_pos hcomma
  · refine Or.inr (Or.inr fun ts => ?_)
    rw [hother]
    cases afterEllipsis? (t :: ts) with
    | some rest => rfl
    | none =>
      cases last with
      | none => exact if_neg fun hkind => hword ⟨rfl, hkind⟩
      | some name => exact if_neg fun hmark => hcomma ⟨rfl, hmark⟩

/-- A parameter list that is closed ends there. -/
theorem readParameters_append {names : List Text} {last : Option Text} {ts body : List Lexeme}
    {parameters : Parameters} (h : readParameters names last ts = some (parameters, body))
    (us : List Lexeme) : readParameters names last (ts ++ us) = some (parameters, body ++ us) := by
  induction ts generalizing names last with
  | nil => cases h
  | cons t ts ih =>
    rw [List.cons_append]
    rcases readParameters_cases names last t with ⟨names', last', heq⟩ | ⟨r, heq⟩ | heq
    · rw [heq] at h ⊢
      exact ih h
    · rw [heq] at h ⊢
      obtain ⟨parameters, rfl, hpair⟩ := Option.map_eq_some_iff.1 h
      cases hpair
      rfl
    · rw [heq] at h ⊢
      obtain ⟨after, hafter, hpair⟩ := Option.map_eq_some_iff.1 h
      obtain ⟨rest, hrest, hclosing⟩ := Option.bind_eq_some_iff.1 hafter
      cases hpair
      rw [← List.cons_append, afterEllipsis?_append hrest]
      show (afterClosing? (rest ++ us)).map _ = _
      rw [afterClosing?_append hclosing]
      rfl

theorem afterClosing?_append_gap {ts : List Lexeme} (h : afterClosing? ts = none)
    (hgap : ∀ t ∈ gap, t.isBlank) (us : List Lexeme) :
    afterClosing? (ts ++ (gap ++ us)) = afterClosing? (ts ++ us) := by
  have hdrop (vs : List Lexeme) : (ts ++ vs).dropWhile Lexeme.isBlank =
      if (ts.dropWhile Lexeme.isBlank).isEmpty then vs.dropWhile Lexeme.isBlank
      else ts.dropWhile Lexeme.isBlank ++ vs := List.dropWhile_append
  unfold afterClosing? at h ⊢
  rw [hdrop, hdrop]
  cases hts : ts.dropWhile Lexeme.isBlank with
  | nil => rw [List.isEmpty_nil, if_pos rfl, if_pos rfl, dropWhile_isBlank_append hgap]
  | cons t rest =>
    rw [hts] at h
    rw [List.isEmpty_cons, if_neg Bool.false_ne_true, if_neg Bool.false_ne_true]
    cases hclose : t.isPunct ')' with
    | true => simp [hclose] at h
    | false => simp [hclose]

/-- Inside of a parameter list it does not matter which blanks stand between lexemes. -/
theorem readParameters_append_gap {names : List Text} {last : Option Text} {ts : List Lexeme}
    (h : readParameters names last ts = none) (hgap : ∀ t ∈ gap, t.isBlank) (hne : gap ≠ [])
    (us : List Lexeme) :
    readParameters names last (ts ++ (gap ++ us)) =
      readParameters names last (ts ++ spaceAt 0 :: us) := by
  have hspace : ∀ t ∈ [spaceAt 0], t.isBlank := List.forall_mem_singleton.2 rfl
  induction ts generalizing names last with
  | nil =>
    exact (readParameters_blank_append hgap names last us).trans
      (readParameters_blank_append hspace names last us).symm
  | cons t ts ih =>
    rw [List.cons_append, List.cons_append]
    rcases readParameters_cases names last t with ⟨names', last', heq⟩ | ⟨r, heq⟩ | heq
    · rw [heq] at h
      rw [heq, heq]
      exact ih h
    · rw [heq, Option.map_eq_none_iff] at h
      rw [heq, heq, h]
      rfl
    · rw [heq, Option.map_eq_none_iff] at h
      rw [heq, heq, ← List.cons_append, ← List.cons_append]
      congr 1
      cases hrest : afterEllipsis? (t :: ts) with
      | none =>
        obtain ⟨g, gs, rfl⟩ := List.exists_cons_of_ne_nil hne
        show (afterEllipsis? (t :: ts ++ g :: (gs ++ us))).bind _ = _
        rw [afterEllipsis?_append_gap hrest (hgap g List.mem_cons_self),
          afterEllipsis?_append_gap hrest (hspace _ List.mem_cons_self)]
      | some rest =>
        rw [hrest] at h
        have hclosing : afterClosing? rest = none := h
        rw [afterEllipsis?_append hrest, afterEllipsis?_append hrest]
        exact (afterClosing?_append_gap hclosing hgap us).trans
          (afterClosing?_append_gap hclosing hspace us).symm

/-- Any blanks may stand in front of the body of a macro. -/
theorem define_append_gap (table : MacroTable) {as : List Lexeme}
    (hfirst : ∀ t ∈ as.head?, t.isBlank = false) (hbody : bodyOf as = [])
    (hgap : ∀ t ∈ gap, t.isBlank) (hne : gap ≠ []) (us : List Lexeme) (line : Nat) :
    table.define (as ++ (gap ++ us)) line = table.define (as ++ spaceAt 0 :: us) line := by
  have hspace : ∀ t ∈ [spaceAt 0], t.isBlank := List.forall_mem_singleton.2 rfl
  have hcongr {args args' : List Lexeme} (h : stripBlank args = stripBlank args') :
      table.define args line = table.define args' line := by
    rw [define, define, h]
  cases as with
  | nil =>
    refine hcongr ?_
    exact (stripBlank_blank_append hgap us).trans (stripBlank_blank_append hspace us).symm
  | cons name rest =>
  have hname := hfirst name rfl
  by_cases hall : us.rdropWhile Lexeme.isBlank = []
  · rw [List.rdropWhile_eq_nil_iff] at hall
    refine hcongr ?_
    rw [stripBlank_append_blank (List.forall_mem_append.2 ⟨hgap, hall⟩),
      stripBlank_append_blank (List.forall_mem_cons.2 ⟨rfl, hall⟩)]
  have hstrip (blanks : List Lexeme) : stripBlank (name :: rest ++ (blanks ++ us)) =
      name :: (rest ++ (blanks ++ us.rdropWhile Lexeme.isBlank)) := by
    rw [List.cons_append, stripBlank_cons_of_not_isBlank hname, ← List.append_assoc,
      rdropWhile_isBlank_append hall, List.append_assoc]
  have hleft := hstrip gap
  have hright : stripBlank (name :: rest ++ spaceAt 0 :: us) =
    name :: (rest ++ spaceAt 0 :: us.rdropWhile Lexeme.isBlank) := hstrip [spaceAt 0]
  generalize us.rdropWhile Lexeme.isBlank = vs at hleft hright
  have hstored : stripBlank (gap ++ vs) = stripBlank (spaceAt 0 :: vs) :=
    (stripBlank_blank_append hgap vs).trans (stripBlank_blank_append hspace vs).symm
  rw [define, define, hleft, hright]
  dsimp only
  split
  · rfl
  cases rest with
  | nil =>
    obtain ⟨g, gs, rfl⟩ := List.exists_cons_of_ne_nil hne
    have hg : g.isPunct '(' = false := Bool.eq_false_iff.2 fun hopen => by
      have := hgap g List.mem_cons_self
      rw [isBlank_of_isPunct hopen] at this
      cases this
    simp only [List.nil_append, List.cons_append] at hstored ⊢
    rw [if_neg (Bool.eq_false_iff.1 hg), if_neg (by decide), hstored]
  | cons t ts =>
    dsimp only [List.cons_append]
    rw [bodyOf] at hbody
    split
    next hopen =>
      rw [if_pos hopen] at hbody
      cases hread : readParameters [] none ts with
      | none => rw [readParameters_append_gap hread hgap hne]
      | some r =>
        obtain ⟨parameters, body⟩ := r
        rw [hread] at hbody
        obtain rfl : body = [] := hbody
        rw [readParameters_append hread, readParameters_append hread]
        dsimp only [List.nil_append]
        rw [hstored]
    next hopen =>
      rw [if_neg hopen] at hbody
      cases hbody

end MacroTable

end IdlFrontend
