import IdlFrontend.Proofs.Lexeme.Compact
import IdlFrontend.Proofs.Lexer.TokenText
import IdlFrontend.Token.Lexer

/-!
# Layouts

What matters of a source text is which tokens stand together without space between
them, and where lines end. A layout says that and leaves out what blanks and comments
are made of.

Results:

* `Laid.split`: every text of a layout begins with a compact text, which may be empty.
* `Compact.prepend`: a token in front of a compact text.
-/

namespace IdlFrontend

/-- A token whose line is not known. -/
structure Unplaced where
  kind : TokenKind
  text : Text

/-- The token on a line. -/
def Unplaced.at (line : UInt64) (t : Unplaced) : Token := ⟨t.kind, t.text, line⟩

/-- The characters of tokens without space between them. -/
def glue (ts : List Unplaced) : Text := ts.flatMap Unplaced.text

@[simp] theorem glue_cons (t : Unplaced) (ts : List Unplaced) :
glue (t :: ts) = t.text ++ glue ts :=
  rfl

/-- A part of a source text. -/
inductive Part where
  /-- Tokens without space between them. -/
  | solid (ts : List Unplaced)
  /-- Blanks or a comment with a number of line breaks in it. -/
  | blank (lines : Nat)
  | lineBreak

/-- The tokens of a layout whose first part begins on a line. -/
def tokensFrom (line : UInt64) : List Part → List Token
  | [] => []
  | .solid ts :: ps => ts.map (·.at line) ++ tokensFrom line ps
  | .blank lines :: ps => tokensFrom (line + .ofNat lines) ps
  | .lineBreak :: ps => tokensFrom (line + 1) ps

theorem tokensFrom_blank_zero (line : UInt64) (ps : List Part) :
    tokensFrom line (.blank 0 :: ps) = tokensFrom line ps :=
  congrArg (tokensFrom · ps) (UInt64.add_zero line)

/-- Whether a layout begins with tokens. -/
def startsSolid : List Part → Bool
  | .solid _ :: _ => true
  | _ => false

/-- In the ordinary mode, `t` is read from the front of a text that goes on with
    `rest`. -/
structure ReadsAlone (dialect : Dialect) (t : Unplaced) (rest : Text) : Prop where
  exists_rule : ∃ r, Rule.longestMatch false (t.text ++ rest) (Rule.inMode .ordinary) =
    some (t.text.length, r) ∧ r.meaning.kind? dialect t.text = some t.kind ∧ r.change = .stay
  ne_native : t.kind ≠ .keyword .native
  ne_nil : t.text ≠ []
  inline : ∀ c ∈ t.text, isLineEnd c = false

/-- Tokens that are read one after the other in front of `x`. -/
inductive Glued (dialect : Dialect) (x : Text) : List Unplaced → Prop
  | nil : Glued dialect x []
  | cons {t : Unplaced} {ts : List Unplaced} : ReadsAlone dialect t (glue ts) →
    Rule.Readable x (t.text ++ glue ts) → Glued dialect x ts → Glued dialect x (t :: ts)

/-- A text and its layout. `P` holds of every word outside of literals and comments. -/
inductive Laid (dialect : Dialect) (P : Text → Prop) : Text → List Part → Prop
  | nil : Laid dialect P [] []
  | solid {ts : List Unplaced} {rest : Text} {ps : List Part} : ts ≠ [] → Glued dialect rest ts →
    Lexeme.Compact P rest false (glue ts) → Ends rest → startsSolid ps = false →
    Laid dialect P rest ps → Laid dialect P (glue ts ++ rest) (.solid ts :: ps)
  | blanks {cs rest : Text} {ps : List Part} : cs ≠ [] → (∀ c ∈ cs, isBlank c) →
    (∀ c ∈ rest.head?, isBlank c = false) → Laid dialect P rest ps →
    Laid dialect P (cs ++ rest) (.blank 0 :: ps)
  | lineComment {cs rest : Text} {ps : List Part} : (∀ c ∈ cs, isLineEnd c = false) →
    (∀ c ∈ rest.head?, isLineEnd c) → Laid dialect P rest ps →
    Laid dialect P ('/' :: '/' :: cs ++ rest) (.blank 0 :: ps)
  | blockComment {cs : Text} {n : Nat} {ps : List Part} : Pattern.lengthBefore? '*' '/' cs =
      some n →
    Laid dialect P (cs.drop (n + 2)) ps →
    Laid dialect P ('/' :: '*' :: cs) (.blank (Text.lineBreaks (cs.take (n + 2))) :: ps)
  | lineBreak {cs : Text} {ps : List Part} : 0 < Pattern.lineBreakLength cs →
    Laid dialect P (cs.drop (Pattern.lineBreakLength cs)) ps → Laid dialect P cs (.lineBreak :: ps)

variable {dialect : Dialect} {P : Text → Prop} {x rest : Text}

theorem isLineEnd_head_of_lineBreakLength {cs : Text} (h : 0 < Pattern.lineBreakLength cs) :
    ∃ c ds, cs = c :: ds ∧ isLineEnd c := by
  cases cs with
  | nil => cases h
  | cons c ds =>
    refine ⟨c, ds, rfl, ?_⟩
    by_contra hend
    rw [Pattern.lineBreakLength_of_not_isLineEnd (Bool.eq_false_iff.2 hend)] at h
    cases h

theorem mem_boundary_of_isBlank {c : Char} (h : isBlank c) : c ∈ boundary := by
  simp only [isBlank, Bool.or_eq_true, beq_iff_eq] at h
  rcases h with ((rfl | rfl) | rfl) | rfl <;> decide

theorem isLineEnd_of_isBlank {c : Char} (h : isBlank c) : isLineEnd c = false := by
  simp only [isBlank, Bool.or_eq_true, beq_iff_eq] at h
  rcases h with ((rfl | rfl) | rfl) | rfl <;> rfl

theorem mem_boundary_of_isLineEnd {c : Char} (h : isLineEnd c) : c ∈ boundary := by
  simp only [isLineEnd, Bool.or_eq_true, beq_iff_eq] at h
  rcases h with rfl | rfl <;> decide

/-- A text whose layout does not begin with tokens begins with blanks, a line break or
    a comment. -/
theorem Laid.ends {cs : Text} {ps : List Part} (h : Laid dialect P cs ps)
    (hstart : startsSolid ps = false) : Ends cs := by
  cases h with
  | nil => exact ends_nil
  | solid => cases hstart
  | @blanks cs rest _ hne hblank =>
    obtain ⟨c, ds, rfl⟩ := List.exists_cons_of_ne_nil hne
    rintro d ⟨⟩
    exact mem_boundary_of_isBlank (hblank c List.mem_cons_self)
  | lineComment | blockComment =>
    rintro d ⟨⟩
    decide
  | lineBreak hbreak =>
    obtain ⟨c, ds, rfl, hend⟩ := isLineEnd_head_of_lineBreakLength hbreak
    rintro d ⟨⟩
    exact mem_boundary_of_isLineEnd hend

/-- Every text of a layout begins with a compact text, which may be empty. -/
theorem Laid.split {cs : Text} {ps : List Part} (h : Laid dialect P cs ps) :
    ∃ ts rest qs, cs = glue ts ++ rest ∧ Glued dialect rest ts ∧
      Lexeme.Compact P rest false (glue ts) ∧ Ends rest ∧ startsSolid qs = false ∧
      Laid dialect P rest qs ∧
      ∀ line, tokensFrom line ps = ts.map (·.at line) ++ tokensFrom line qs := by
  cases hstart : startsSolid ps with
  | false => exact ⟨[], cs, ps, rfl, .nil, .nil, h.ends hstart, hstart, h, fun line => rfl⟩
  | true =>
    cases h with
    | @solid ts rest qs _ hglued hcompact hends hqs hrest =>
      exact ⟨ts, rest, qs, rfl, hglued, hcompact, hends, hqs, hrest, fun line => rfl⟩
    | nil | blanks | lineComment | blockComment | lineBreak => cases hstart

namespace Lexeme

theorem Compact.weaken {w : Text} (h : Compact P x false w) (inWord : Bool) :
    Compact P x inWord w := by
  cases h with
  | nil => exact .nil
  | plain hc hcomment hword hrest =>
    exact .plain hc hcomment (fun _ => hword rfl) hrest
  | quoted hquote hv hclosed hrest => exact .quoted hquote hv hclosed hrest

/-- Characters without words of their own in front of a compact text. -/
theorem Compact.append {t w : Text} (hplain : ∀ c ∈ t, isPlain c) (hslash : '/' ∉ t)
    {inWord : Bool} (hlinkage : (linkage inWord t).isSome) (h : Compact P x false w) :
    Compact P x inWord (t ++ w) := by
  induction t generalizing inWord with
  | nil => exact h.weaken inWord
  | cons c t ih =>
    rw [List.forall_mem_cons] at hplain
    rw [List.mem_cons, not_or] at hslash
    rw [linkage] at hlinkage
    split at hlinkage
    · cases hlinkage
    next hword =>
      refine .plain hplain.1 (opensComment_of_ne (Ne.symm hslash.1) _) (fun hin hstart => ?_)
        (ih hplain.2 hslash.2 hlinkage)
      rw [hin, hstart] at hword
      exact absurd rfl hword

/-- A token that is no literal in front of a compact text. -/
theorem Compact.prepend {c : Char} {t w : Text} (ht : Pattern.PlainToken c t (w ++ x)) (hx : Ends x)
    (hcomment : opensComment (c :: t ++ w ++ x) = false) (hword : isWordStart c → P (c :: t))
    (h : Compact P x false w) : Compact P x false (c :: t ++ w) := by
  obtain ⟨hplain, hslash, hwhole, hlinkage⟩ := ht
  rw [List.forall_mem_cons] at hplain
  refine .plain hplain.1 hcomment (fun _ hstart => ?_) (h.append hplain.2 hslash hlinkage)
  have htake : (t ++ w).takeWhile isWordPart = t := by
    have hends :=
      Pattern.takeWhile_append (hx.head?_eq_false (p := isWordPart) (by decide)) (t ++ w)
    rw [← hends, List.append_assoc]
    exact hwhole hstart
  show P (c :: (t ++ w).takeWhile isWordPart)
  rw [htake]
  exact hword hstart

end Lexeme

end IdlFrontend
