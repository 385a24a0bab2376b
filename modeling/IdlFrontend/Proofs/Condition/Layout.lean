import IdlFrontend.Proofs.Condition.Literal
import IdlFrontend.Proofs.Condition.Reader
import IdlFrontend.Proofs.Lexer.LineFeeds
import Mathlib.Data.List.Chain

/-!
# Conditions as text

The tokens of a condition are laid out with any white space between them, or with none. Two tokens
that stand next to each other in a phrase never run together: of two neighbours at least one is a
mark, and no mark begins like a longer mark whose second character the next token begins with.

Results:

* `scan_spec`: what is scanned is laid out in the text, and a reason for refusing a text is none of
  evaluation.
* `Phrase.wellOrdered`: what stands next to what in a phrase.
* `scan_of_laid`: the tokens of a phrase are scanned from any text that they are laid out in.
* `exists_laid`: tokens can be laid out if their numbers can be written.
-/

namespace IdlFrontend.Condition

/-! ## Layout -/

/-- The spellings of the tokens. -/
inductive Spelled : Text → Token → Prop
  | number {text : Text} {n : Nat} : Literal text n → Spelled text (.number (Int64.ofNat n))
  | character {c : Char} : c ≠ '\\' → Spelled ['\'', c, '\''] (.number (Int64.ofNat c.toNat))
  | escape (c : Char) : Spelled ['\'', '\\', c, '\''] (.number (Int64.ofNat (unescape c).toNat))
  | name {c : Char} {cs : Text} : isWordStart c → (∀ d ∈ cs, isWordPart d) → Spelled (c :: cs) .name
  | mark (m : Mark) : Spelled m.spelling.toList (.mark m)

/-- The tokens are laid out in the text, with white space around them. -/
inductive Laid : List Token → Text → Prop
  | nil {gap : Text} : (∀ c ∈ gap, isWhiteSpace c) → Laid [] gap
  | cons {gap s cs : Text} {t : Token} {ts : List Token} : (∀ c ∈ gap, isWhiteSpace c) →
      Spelled s t → Laid ts cs → Laid (t :: ts) (gap ++ (s ++ cs))

variable {c : Char} {cs s rest : Text} {t u : Token} {ts : List Token} {k : Nat} {e : Expr}

theorem Laid.white (hc : isWhiteSpace c) (h : Laid ts cs) : Laid ts (c :: cs) := by
  cases h with
  | nil hgap => exact .nil (List.forall_mem_cons.2 ⟨hc, hgap⟩)
  | cons hgap hs hrest => exact .cons (List.forall_mem_cons.2 ⟨hc, hgap⟩) hs hrest

/-- Nothing has to stand before a token. -/
theorem Laid.append (h : Laid ts cs) (hs : Spelled s t) : Laid (t :: ts) (s ++ cs) := by
  rw [← List.nil_append (s ++ cs)]
  exact .cons (List.forall_mem_nil _) hs h

/-- A mark begins with no white space, no letter or digit, and no quote. -/
theorem Mark.exists_spelling (m : Mark) : ∃ c s, m.spelling.toList = c :: s ∧
    m.spelling.length = s.length + 1 ∧ isWhiteSpace c = false ∧ isWordPart c = false ∧
    c ≠ '\'' := by
  cases m <;> exact ⟨_, _, rfl, rfl, by decide, by decide, by decide⟩

theorem Spelled.ne_nil (h : Spelled s t) : s ≠ [] := by
  cases h with
  | number h =>
    obtain ⟨c, cs, rfl, -⟩ := h.exists_cons
    exact List.cons_ne_nil c cs
  | mark m =>
    obtain ⟨c, s, hspelling, -⟩ := m.exists_spelling
    rw [hspelling]
    exact List.cons_ne_nil c s
  | character | escape | name => exact List.cons_ne_nil _ _

/-! ## What is scanned -/

/-- The tokens are laid out in the text, or the reason why there are none is not one of
    evaluation. -/
def Scans (cs : Text) : Except ConditionError (List Token) → Prop
  | .ok ts => Laid ts cs
  | .error f => ¬f.IsFault

theorem Scans.cons (hs : Spelled s t) {r : Except ConditionError (List Token)} (h : Scans rest r) :
    Scans (s ++ rest) (r.map (t :: ·)) := by
  cases r with
  | error f => exact h
  | ok ts => exact Laid.append h hs

theorem spelled_of_readCharacter {d : Char} (h : readCharacter cs = some (d, rest)) :
    ∃ s, '\'' :: cs = s ++ rest ∧ Spelled s (.number (Int64.ofNat d.toNat)) := by
  unfold readCharacter at h
  split at h
  next c cs =>
    cases h
    exact ⟨_, rfl, .escape c⟩
  · cases h
  next c cs _ hnot =>
    cases h
    refine ⟨_, rfl, .character ?_⟩
    rintro rfl
    exact hnot rfl
  · cases h

theorem isFault_readNumber {text : Text} {f : ConditionError} (h : readNumber text = .error f) :
    ¬f.IsFault := by
  rw [readNumber_eq] at h
  split at h
  · split at h
    · cases h
    · cases h
      exact id
  · cases h
    exact id

/-- What is scanned is laid out in the text, and a reason for refusing a text is none of
    evaluation. -/
theorem scan_spec (cs : Text) : Scans cs (scan cs) := by
  fun_induction scan cs with
  | case1 => exact .nil (List.forall_mem_nil _)
  | case2 c cs hwhite ih =>
    cases hscan : scan cs with
    | error f => rwa [hscan] at ih
    | ok ts =>
      rw [hscan] at ih
      exact Laid.white hwhite ih
  | case3 c cs _ hdigit f hread => exact isFault_readNumber hread
  | case4 c cs _ hdigit v hread ih =>
    obtain ⟨n, hliteral, rfl⟩ := readNumber_eq_ok_iff.1 hread
    have hscans := ih.cons (.number hliteral)
    rwa [List.cons_append, List.takeWhile_append_dropWhile] at hscans
  | case5 c cs _ _ hword ih =>
    have hscans := ih.cons (.name hword (List.all_eq_true.1 (List.all_takeWhile (l := cs))))
    rwa [List.cons_append, List.takeWhile_append_dropWhile] at hscans
  | case6 cs _ _ _ hread =>
    exact id
  | case7 cs d rest hread _ _ _ ih =>
    obtain ⟨s, hs, hspelled⟩ := spelled_of_readCharacter hread
    rw [hs]
    exact ih.cons hspelled
  | case8 c cs _ _ _ _ hfind =>
    exact id
  | case9 c cs _ _ _ _ mark hfind ih =>
    have hprefix := List.find?_some hfind
    obtain ⟨rest, hrest⟩ := List.isPrefixOf_iff_prefix.1 hprefix
    obtain ⟨d, s, hspelling, hlength, -⟩ := mark.exists_spelling
    have hdrop : cs.drop (mark.spelling.length - 1) = rest := by
      rw [hspelling, List.cons_append] at hrest
      obtain ⟨-, rfl⟩ := List.cons.inj hrest
      rw [hlength, Nat.add_sub_cancel, List.drop_left]
    rw [hdrop] at ih ⊢
    rw [← hrest]
    exact ih.cons (.mark mark)

/-! ## What stands next to what -/

/-- A token that an operand ends with: anything but a mark, and a closing parenthesis. -/
def Token.Ends (t : Token) : Prop := ∀ m, t = .mark m → m = .closeParen

/-- A token that an operand begins with: anything but a mark, an opening parenthesis, and the prefix
    operators. -/
def Token.Begins (t : Token) : Prop :=
  ∀ m, t = .mark m → m = .openParen ∨ ∃ op : UnaryOp, op.mark = m

/-- What may stand behind a token in a phrase: a mark behind an operand, and elsewhere an
    operand. -/
def Follows (t u : Token) : Prop := (t.Ends → ∃ m, u = .mark m) ∧ (¬t.Ends → u.Begins)

/-- Tokens that stand in the order of a phrase. -/
structure WellOrdered (ts : List Token) : Prop where
  begins : ∃ t, ts.head? = some t ∧ t.Begins
  ends : ∃ t, ts.getLast? = some t ∧ t.Ends
  chain : ts.IsChain Follows

theorem Token.ends_mark {m : Mark} : (Token.mark m).Ends ↔ m = .closeParen := by
  simp [Token.Ends]

theorem Token.begins_mark {m : Mark} :
    (Token.mark m).Begins ↔ m = .openParen ∨ ∃ op : UnaryOp, op.mark = m := by
  simp [Token.Begins]

theorem WellOrdered.cons {m : Mark} (hm : m ≠ .closeParen) (hts : WellOrdered ts) :
    (Token.mark m :: ts).IsChain Follows ∧ ∃ t, (Token.mark m :: ts).getLast? = some t ∧
      t.Ends := by
  obtain ⟨⟨t, hhead, ht⟩, ⟨u, hlast, hu⟩, hchain⟩ := hts
  obtain ⟨ts, rfl⟩ := List.head?_eq_some_iff.1 hhead
  refine ⟨.cons_cons ⟨fun h => absurd (Token.ends_mark.1 h) hm, fun _ => ht⟩ hchain, u, ?_, hu⟩
  rw [List.getLast?_cons_cons, hlast]

/-- A mark stands behind the end of an operand. -/
theorem isChain_append_mark {ls rs : List Token} {m : Mark} (hls : ls.IsChain Follows)
    (hends : ∃ t, ls.getLast? = some t ∧ t.Ends) (hrs : (Token.mark m :: rs).IsChain Follows) :
    (ls ++ .mark m :: rs).IsChain Follows := by
  refine List.isChain_append.2 ⟨hls, hrs, ?_⟩
  rintro t ht _ ⟨⟩
  obtain ⟨u, hu, hends⟩ := hends
  rw [hu] at ht
  cases ht
  exact ⟨fun _ => ⟨m, rfl⟩, fun hnot => absurd hends hnot⟩

/-- An operand, a mark and another operand. -/
theorem WellOrdered.join {ls rs : List Token} {m : Mark} (hls : WellOrdered ls)
    (hm : m ≠ .closeParen) (hrs : WellOrdered rs) : WellOrdered (ls ++ .mark m :: rs) := by
  obtain ⟨hchain, u, hlast, hu⟩ := hrs.cons hm
  obtain ⟨t, hhead, ht⟩ := hls.begins
  refine ⟨⟨t, ?_, ht⟩, ⟨u, ?_, hu⟩, isChain_append_mark hls.chain hls.ends hchain⟩
  · rw [List.head?_append, hhead]
    rfl
  · rw [List.getLast?_append, hlast]
    rfl

/-- What stands next to what in a phrase. -/
theorem Phrase.wellOrdered (h : Phrase k ts e) : WellOrdered ts := by
  induction h with
  | choice _ _ _ ihc ihy ihn => exact ihc.join (by decide) (ihy.join (by decide) ihn)
  | binary op _ _ ihl ihr => exact ihl.join (by cases op <;> decide) ihr
  | unary op _ ih =>
    obtain ⟨hchain, hends⟩ := ih.cons (m := op.mark) (by cases op <;> decide)
    exact ⟨⟨_, rfl, Token.begins_mark.2 (.inr ⟨op, rfl⟩)⟩, hends, hchain⟩
  | number value | name => exact ⟨⟨_, rfl, nofun⟩, ⟨_, rfl, nofun⟩, .singleton _⟩
  | @parenthesized ts e _ ih =>
    obtain ⟨hchain, hends⟩ := ih.cons (m := .openParen) (by decide)
    refine ⟨⟨_, rfl, Token.begins_mark.2 (.inl rfl)⟩, ⟨.mark .closeParen, ?_,
      Token.ends_mark.2 rfl⟩, isChain_append_mark hchain hends (.singleton _)⟩
    rw [← List.cons_append, List.getLast?_append]
    rfl
  | tighter _ ih => exact ih

/-! ## What a phrase is scanned from -/

/-- A character that is the second one of a mark. -/
def isSecond (c : Char) : Bool := c == '|' || c == '&' || c == '=' || c == '<' || c == '>'

/-- The spelling of the token ends where the character comes next. -/
def Token.EndsBefore : Token → Char → Prop
  | .mark m, c => m = .closeParen ∨ isSecond c = false
  | _, c => isWordPart c = false

theorem isSecond_eq_false {p : Char → Bool} (hp : ['|', '&', '=', '<', '>'].any p = false)
    (hc : p c) : isSecond c = false := by
  refine Bool.eq_false_iff.2 fun hsecond => ?_
  have hmem : c ∈ ['|', '&', '=', '<', '>'] := by
    simpa [isSecond, or_assoc] using hsecond
  exact List.any_eq_false.1 hp c hmem hc

theorem isSecond_of_isWordPart (h : isWordPart c) : isSecond c = false :=
  isSecond_eq_false rfl h

theorem isWordPart_of_isWhiteSpace (h : isWhiteSpace c) : isWordPart c = false := by
  have hrange : (9 ≤ c.toNat ∧ c.toNat ≤ 13) ∨ c.toNat = 32 ∨ 133 ≤ c.toNat := by
    simp only [isWhiteSpace, whiteSpaceRanges, List.any_cons, List.any_nil, Bool.or_false,
      Bool.or_eq_true, Bool.and_eq_true, decide_eq_true_eq] at h
    omega
  refine Bool.eq_false_iff.2 fun hpart => ?_
  simp only [isWordPart, Char.isAlphanum, Bool.or_eq_true, beq_iff_eq, isAlpha_iff_toNat,
    Char.isDigit_iff_toNat, Char.reduceToNat] at hpart
  rcases hpart with (hpart | hpart) | rfl
  · omega
  · omega
  · exact absurd hrange (by decide)

theorem Token.endsBefore_of_isWhiteSpace (t : Token) (h : isWhiteSpace c) : t.EndsBefore c := by
  cases t with
  | mark m => exact .inr (isSecond_eq_false rfl h)
  | number | name => exact isWordPart_of_isWhiteSpace h

theorem spelled_mark_iff {text : Text} {m : Mark} :
    Spelled text (.mark m) ↔ text = m.spelling.toList := by
  constructor
  · rintro ⟨⟩
    rfl
  · rintro rfl
    exact .mark m

/-- An operand begins with no character that is the second one of a mark. -/
theorem isSecond_of_begins (hu : u.Begins) {text : Text} (hs : Spelled text u) :
    ∀ c ∈ text.head?, isSecond c = false := by
  cases hs with
  | number h =>
    obtain ⟨c, cs, rfl, hc, -⟩ := h.exists_cons
    rintro _ ⟨⟩
    exact isSecond_of_isWordPart (Pattern.isWordPart_of_isDigit hc)
  | character | escape =>
    rintro _ ⟨⟩
    decide
  | @name c cs hc =>
    rintro _ ⟨⟩
    exact isSecond_of_isWordPart (Pattern.isWordPart_of_isWordStart hc)
  | mark m =>
    rcases Token.begins_mark.1 hu with rfl | ⟨op, rfl⟩
    · rintro _ ⟨⟩
      decide
    · cases op <;> rintro _ ⟨⟩ <;> decide

/-- A token ends before every token that may follow it. -/
theorem Token.endsBefore_of_follows (h : Follows t u) (hs : Spelled (c :: s) u) :
    t.EndsBefore c := by
  have hmark (ht : t.Ends) : isWordPart c = false := by
    obtain ⟨m, rfl⟩ := h.1 ht
    obtain ⟨d, s', hspelling, -, -, hd, -⟩ := m.exists_spelling
    rw [spelled_mark_iff, hspelling] at hs
    obtain ⟨rfl, -⟩ := List.cons.inj hs
    exact hd
  cases t with
  | mark m =>
    by_cases hm : m = .closeParen
    · exact .inl hm
    · exact .inr (isSecond_of_begins (h.2 (mt Token.ends_mark.1 hm)) hs c rfl)
  | number | name => exact hmark nofun

theorem find?_mark (m : Mark) (h : ∀ c ∈ cs.head?, (Token.mark m).EndsBefore c) :
    Mark.all.find? (fun m' => m'.spelling.toList.isPrefixOf (m.spelling.toList ++ cs)) =
      some m := by
  rcases cs with _ | ⟨c, cs⟩
  · cases m <;> rfl
  rcases h c rfl with rfl | hc
  · rfl
  simp only [isSecond, Bool.or_eq_false_iff, beq_eq_false_iff_ne] at hc
  obtain ⟨⟨⟨⟨hbar, hand⟩, heq⟩, hless⟩, hgreater⟩ := hc
  have hnot (d : Char) (hd : c ≠ d) : ([d] : Text).isPrefixOf (c :: cs) = false := by
    rw [List.isPrefixOf_cons_cons, beq_eq_false_iff_ne.2 (Ne.symm hd), Bool.false_and]
  -- Only these marks are the beginning of another one.
  cases m with
  | bar | ampersand | less | greater | bang =>
    simp [Mark.all, Mark.spelling, hnot, hbar, hand, heq, hless, hgreater]
  | _ => rfl

theorem takeWhile_dropWhile_append {p : Char → Bool} (hs : ∀ c ∈ s, p c)
    (hcs : ∀ c ∈ cs.head?, p c = false) :
    (s ++ cs).takeWhile p = s ∧ (s ++ cs).dropWhile p = cs := by
  rw [List.takeWhile_append_of_pos hs, List.dropWhile_append_of_pos hs]
  cases cs with
  | nil => exact ⟨List.append_nil s, rfl⟩
  | cons c cs =>
    have hc : ¬p c := by simpa using hcs c rfl
    rw [List.takeWhile_cons_of_neg hc, List.dropWhile_cons_of_neg hc, List.append_nil]
    exact ⟨rfl, rfl⟩

theorem readCharacter_cons {d : Char} (hd : d ≠ '\\') (cs : Text) :
    readCharacter (d :: '\'' :: cs) = some (d, cs) := by
  unfold readCharacter
  split
  next heq =>
    cases heq
    exact absurd rfl hd
  next heq =>
    cases heq
    exact absurd rfl hd
  next heq =>
    cases heq
    rfl
  next hnot => exact absurd rfl (hnot _ _)

/-- A token is scanned off the front of a text if its spelling ends there. -/
theorem scan_spelled (hs : Spelled s t) (hnext : ∀ c ∈ cs.head?, t.EndsBefore c) :
    scan (s ++ cs) = (scan cs).map (t :: ·) := by
  have hwhite {c : Char} (hc : isWordPart c) : ¬isWhiteSpace c := fun hwhite => by
    rw [isWordPart_of_isWhiteSpace hwhite] at hc
    cases hc
  have hcharacter {text : Text} {d : Char} (hread : readCharacter text = some (d, cs)) :
      scan ('\'' :: text) = (scan cs).map (.number (Int64.ofNat d.toNat) :: ·) := by
    rw [scan, if_neg (by decide), if_neg (by decide), if_neg (by decide), if_pos rfl]
    split
    next hnone =>
      rw [hread] at hnone
      cases hnone
    next hsome =>
      rw [hread] at hsome
      cases hsome
      rfl
  cases hs with
  | @number _ n hliteral =>
    obtain ⟨c, cs', rfl, hc, hcs'⟩ := hliteral.exists_cons
    have hpart := Pattern.isWordPart_of_isDigit hc
    have halphanum : ∀ c ∈ cs.head?, c.isAlphanum = false := fun c hc =>
      (Bool.or_eq_false_iff.1 (hnext c hc)).1
    obtain ⟨htake, hdrop⟩ := takeWhile_dropWhile_append hcs' halphanum
    rw [List.cons_append, scan, if_neg (hwhite hpart), if_pos hc, htake, hdrop,
      readNumber_eq_ok_iff.2 ⟨n, hliteral, rfl⟩]
  | character hd => exact hcharacter (readCharacter_cons hd cs)
  | escape d => exact hcharacter rfl
  | @name c cs' hc hcs' =>
    have hpart := Pattern.isWordPart_of_isWordStart hc
    have hdigit : ¬c.isDigit := fun hdigit => by
      rw [isWordStart_of_isDigit hdigit] at hc
      cases hc
    rw [List.cons_append, scan, if_neg (hwhite hpart), if_neg hdigit, if_pos hc,
      (takeWhile_dropWhile_append hcs' hnext).2]
  | mark m =>
    have hfind := find?_mark m hnext
    obtain ⟨c, s', hspelling, hlength, hspace, hpart, hquote⟩ := m.exists_spelling
    have hdigit : ¬c.isDigit := fun hdigit => by
      rw [Pattern.isWordPart_of_isDigit hdigit] at hpart
      cases hpart
    have hstart : ¬isWordStart c := fun hstart => by
      rw [Pattern.isWordPart_of_isWordStart hstart] at hpart
      cases hpart
    rw [hspelling, List.cons_append] at hfind ⊢
    rw [scan, if_neg (by simp [hspace]), if_neg hdigit, if_neg hstart, if_neg hquote, hfind]
    simp only [hlength, Nat.add_sub_cancel, List.drop_left]

theorem scan_append_of_white {gap : Text} (hgap : ∀ c ∈ gap, isWhiteSpace c) (cs : Text) :
    scan (gap ++ cs) = scan cs := by
  induction gap with
  | nil => rfl
  | cons c gap ih =>
    rw [List.forall_mem_cons] at hgap
    rw [List.cons_append, scan, if_pos hgap.1, ih hgap.2]

/-- White space or the first token comes first. -/
theorem Laid.head? (h : Laid ts cs) : ∀ c ∈ cs.head?,
    isWhiteSpace c ∨ ∃ t s, ts.head? = some t ∧ Spelled (c :: s) t := by
  have hgap {gap : Text} (hgap : ∀ c ∈ gap, isWhiteSpace c) :
      ∀ c ∈ gap.head?, isWhiteSpace c := fun c hc => hgap c (List.mem_of_mem_head? hc)
  intro c hc
  cases h with
  | nil hwhite => exact .inl (hgap hwhite c hc)
  | @cons gap s cs t ts hwhite hs _ =>
    cases gap with
    | cons d gap => exact .inl (hgap hwhite c hc)
    | nil =>
      obtain ⟨d, s, rfl⟩ := List.exists_cons_of_ne_nil hs.ne_nil
      cases hc
      exact .inr ⟨t, s, rfl, hs⟩

/-- The tokens of a phrase are scanned from any text that they are laid out in. -/
theorem scan_of_laid (h : Laid ts cs) (hchain : ts.IsChain Follows) : scan cs = .ok ts := by
  induction h with
  | @nil gap hgap =>
    have hscan := scan_append_of_white hgap []
    rw [List.append_nil] at hscan
    rw [hscan, scan]
  | @cons gap s cs t ts hgap hs hrest ih =>
    rw [scan_append_of_white hgap, scan_spelled hs, ih hchain.tail]
    · rfl
    · intro c hc
      rcases hrest.head? c hc with hwhite | ⟨u, s', hu, hspelled⟩
      · exact t.endsBefore_of_isWhiteSpace hwhite
      · obtain ⟨us, rfl⟩ := List.head?_eq_some_iff.1 hu
        exact Token.endsBefore_of_follows hchain.rel hspelled

/-! ## Laying tokens out -/

/-- The number is not negative, if the token is one. -/
def Token.IsWritable (t : Token) : Prop := ∀ v, t = .number v → 0 ≤ v

/-- Tokens can be laid out if none of their numbers is negative. -/
theorem exists_laid (h : ∀ t ∈ ts, t.IsWritable) : ∃ cs, Laid ts cs := by
  induction ts with
  | nil => exact ⟨[], .nil (List.forall_mem_nil _)⟩
  | cons t ts ih =>
    rw [List.forall_mem_cons] at h
    obtain ⟨cs, hcs⟩ := ih h.2
    obtain ⟨s, hs⟩ : ∃ s, Spelled s t := by
      cases t with
      | number v =>
        have hv : 0 ≤ v.toInt := Int64.le_iff_toInt_le.1 (h.1 v rfl)
        have hlt := v.toInt_lt
        have hliteral := literal_ofNat (n := v.toInt.toNat) (by omega)
        have hvalue : Int64.ofNat v.toInt.toNat = v := by
          rw [← Int64.ofInt_eq_ofNat, Int.toNat_of_nonneg hv, Int64.ofInt_toInt]
        rw [← hvalue]
        exact ⟨_, .number hliteral⟩
      | name => exact ⟨['x'], .name (by decide) (List.forall_mem_nil _)⟩
      | mark m => exact ⟨_, .mark m⟩
    exact ⟨s ++ cs, hcs.append hs⟩

end IdlFrontend.Condition
