import IdlFrontend.Proofs.Lexeme.Whole
import IdlFrontend.Proofs.Lexer.LineFeeds

/-!
# Lexemes and lines

A lexeme that is not blank stays on its line. Only a quoted literal can have a line
end in it, and then it is a carriage return: the lexeme goes on behind it, and a
reader that ends lines there finds the rest of the literal at the start of a line.

Results:

* `isSpace_eq_false_of_isWhole`: no blank stands at the start of a lexeme that is not
  one.
* `eq_of_isWhole_hash`: a lexeme that begins with a number sign has nothing else in it.
* `literal_of_isLineEnd`: line ends stand in literals only.
-/

namespace IdlFrontend.Lexeme

open Pattern (isInline isInline_of_mem isInline_of_isWordPart)

variable {kind : LexemeKind} {c : Char} {cs : Text}

theorem isSpace_eq_false_of_isWhole (h : IsWhole kind (c :: cs)) (hkind : kind ≠ .space) :
    isSpace c = false := by
  refine Bool.eq_false_iff.2 fun hc => ?_
  have hextent : extent c cs = (kind, cs.length) := h
  rw [extent_of_isSpace hc] at hextent
  exact hkind (congrArg Prod.fst hextent).symm

theorem eq_of_isWhole_hash (h : IsWhole kind ('#' :: cs)) :
    kind = .punctuation ∧ (cs = [] ∨ cs = ['#']) := by
  have hextent : extent '#' cs = (kind, cs.length) := h
  rw [extent_hash] at hextent
  obtain ⟨rfl, hlength⟩ := Prod.mk.inj hextent
  refine ⟨rfl, ?_⟩
  split at hlength
  next hhead =>
    obtain ⟨ds, rfl⟩ := List.head?_eq_some_iff.1 hhead
    rw [List.length_cons, Nat.right_eq_add, List.length_eq_zero_iff] at hlength
    exact Or.inr (by rw [hlength])
  · exact Or.inl (List.eq_nil_of_length_eq_zero hlength.symm)

/-! ## Line ends -/

theorem isInline_of_continuesNumber {last d : Char} (h : continuesNumber last d) : isInline d :=
  isInline_of_mem (by simp [continuesNumber]; decide) (by simp [continuesNumber]; decide) d h

theorem isInline_of_numberLength {last : Char} (h : numberLength last cs = cs.length) :
    ∀ d ∈ cs, isInline d := by
  fun_induction numberLength last cs with
  | case1 => exact List.forall_mem_nil _
  | case2 last d ds hsign ih | case3 last d ds _ hsign ih =>
    have hcontinues : continuesNumber last d := by simp [continuesNumber, hsign]
    exact List.forall_mem_cons.2 ⟨isInline_of_continuesNumber hcontinues, ih (by simpa using h)⟩
  | case4 => simp at h

theorem not_mem_of_quotedLength {quote : Char} (h : quotedLength quote cs = cs.length) :
    '\n' ∉ cs := by
  fun_induction quotedLength quote cs with
  | case1 => exact List.not_mem_nil
  | case2 => cases h
  | case3 => simp at h
  | case4 d ds hd ih =>
    have hrest := ih (by simpa using h)
    have hd' : '\n' ≠ d := fun heq => hd heq.symm
    simp [hd', hrest]
  | case5 d ds hfeed _ _ _ =>
    have hnil : ds = [] := List.eq_nil_of_length_eq_zero (by simpa using h.symm)
    have hd : '\n' ≠ d := fun heq => hfeed heq.symm
    simp [hnil, hd]
  | case6 d ds hfeed _ _ _ ih =>
    have hrest := ih (by simpa using h)
    have hd : '\n' ≠ d := fun heq => hfeed heq.symm
    simp [hd, hrest]

/-- A line end in a lexeme that is not blank is a carriage return in a literal. -/
theorem literal_of_isLineEnd {text : Text} (h : IsWhole kind text)
    (hkind : kind ≠ .space ∧ kind ≠ .newline ∧ kind ≠ .comment) {d : Char} (hd : d ∈ text)
    (hend : isLineEnd d) : d = '\r' ∧ (kind = .string ∨ kind = .character) := by
  obtain ⟨hspaceKind, hnewlineKind, hcommentKind⟩ := hkind
  cases text with
  | nil => exact h.elim
  | cons c cs =>
  have hextent : extent c cs = (kind, cs.length) := h
  have hreturn {quote : Char} (hquote : quote ≠ '\n')
      (hlength : quotedLength quote cs = cs.length) (hd : d ∈ quote :: cs) : d = '\r' := by
    have hfeed : d ≠ '\n' := by
      rintro rfl
      rcases List.mem_cons.1 hd with heq | hmem
      · exact hquote heq.symm
      · exact not_mem_of_quotedLength hlength hmem
    simpa [isLineEnd, hfeed] using hend
  by_cases hfeed : c = '\n'
  · rw [hfeed] at hextent
    exact absurd (congrArg Prod.fst hextent).symm hnewlineKind
  by_cases hdouble : c = '"'
  · subst hdouble
    obtain ⟨rfl, hlength⟩ := Prod.mk.inj hextent
    exact ⟨hreturn (by decide) hlength hd, Or.inl rfl⟩
  by_cases hsingle : c = '\''
  · subst hsingle
    obtain ⟨rfl, hlength⟩ := Prod.mk.inj hextent
    exact ⟨hreturn (by decide) hlength hd, Or.inr rfl⟩
  -- No other lexeme has a line end in it.
  have hnone {ds : Text} (hc : isInline c) (hds : ∀ e ∈ ds, isInline e) (hd : d ∈ c :: ds) :
      d = '\r' ∧ (kind = .string ∨ kind = .character) := by
    have hall : ∀ e ∈ c :: ds, isInline e := List.forall_mem_cons.2 ⟨hc, hds⟩
    have hinline := hall d hd
    rw [isInline, hend] at hinline
    cases hinline
  by_cases hslash : c = '/'
  · subst hslash
    rw [extent_slash] at hextent
    split at hextent
    · exact absurd (congrArg Prod.fst hextent).symm hcommentKind
    · exact absurd (congrArg Prod.fst hextent).symm hcommentKind
    · rw [← (Prod.mk.inj hextent).1] at h
      have hnil : cs = [] := List.eq_nil_of_length_eq_zero (Prod.mk.inj hextent).2.symm
      exact hnone (by decide) (by simp [hnil]) hd
  by_cases hhash : c = '#'
  · subst hhash
    rcases (eq_of_isWhole_hash h).2 with rfl | rfl
    · exact hnone (by decide) (List.forall_mem_nil _) hd
    · exact hnone (by decide) (List.forall_mem_singleton.2 (by decide)) hd
  have hspace := isSpace_eq_false_of_isWhole h hspaceKind
  have hc : isInline c := by
    rw [isSpace, Bool.or_eq_false_iff] at hspace
    simp [isInline, isLineEnd, hspace.2, hfeed]
  rw [extent_other ⟨hfeed, hslash, hdouble, hsingle, hhash⟩, hspace, if_neg (by decide)] at hextent
  split at hextent
  · have hall : ∀ e ∈ cs, isWordPart e := by
      rw [← List.takeWhile_eq_self_iff]
      exact (List.takeWhile_prefix _).eq_of_length (Prod.mk.inj hextent).2
    exact hnone hc (fun e he => isInline_of_isWordPart e (hall e he)) hd
  · split at hextent
    · exact hnone hc (isInline_of_numberLength (Prod.mk.inj hextent).2) hd
    · have hnil : cs = [] := List.eq_nil_of_length_eq_zero (Prod.mk.inj hextent).2.symm
      exact hnone hc (by simp [hnil]) hd

end IdlFrontend.Lexeme
