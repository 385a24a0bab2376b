import IdlFrontend.Proofs.Lexer.Locality

/-!
# The characters of tokens

A token of the ordinary mode is a quoted literal, or it consists of plain characters.
In the latter case no word begins inside it, except where the token itself is one.

Results:

* `linkage_decimal`: in a number, every letter stands behind a letter or digit.
* `plainToken_of_number`, `plainToken_of_word`, `plainToken_of_mark`: what is known
  about a token that is no literal.
* `quotedLength?_take`: a literal is closed by its last character.
-/

namespace IdlFrontend

/-- Whether a text ends in a letter, a digit or an underscore. `inWord` says so for
    what stands before it. There is no answer if a word begins in the text. -/
def linkage : (inWord : Bool) → Text → Option Bool
  | inWord, [] => some inWord
  | inWord, c :: cs => if !inWord && isWordStart c then none else linkage (isWordPart c) cs

theorem linkage_append (inWord : Bool) (u v : Text) :
    linkage inWord (u ++ v) = (linkage inWord u).bind (linkage · v) := by
  induction u generalizing inWord with
  | nil => rfl
  | cons c u ih =>
    rw [List.cons_append, linkage, linkage]
    split
    · rfl
    · exact ih _

theorem linkage_of_isWordPart {u : Text} (h : ∀ c ∈ u, isWordPart c) :
    linkage true u = some true := by
  induction u with
  | nil => rfl
  | cons c u ih =>
    rw [List.forall_mem_cons] at h
    rw [linkage, h.1]
    exact ih h.2

theorem linkage_of_isDigit {u : Text} (hne : u ≠ []) (h : ∀ c ∈ u, c.isDigit) (inWord : Bool) :
    linkage inWord u = some true := by
  cases u with
  | nil => exact absurd rfl hne
  | cons c u =>
    rw [List.forall_mem_cons] at h
    rw [linkage, isWordStart_of_isDigit h.1, Pattern.isWordPart_of_isDigit h.1, Bool.and_false]
    exact linkage_of_isWordPart fun d hd => Pattern.isWordPart_of_isDigit (h.2 d hd)

theorem isSome_linkage {u : Text} (h : ∀ c ∈ u, isWordStart c = false) (inWord : Bool) :
    (linkage inWord u).isSome := by
  induction u generalizing inWord with
  | nil => rfl
  | cons c u ih =>
    rw [List.forall_mem_cons] at h
    rw [linkage, h.1, Bool.and_false]
    exact ih h.2 _

namespace Pattern

/-! ## Numbers -/

theorem take_runLength_ne_nil {p : Char → Bool} {cs : Text} (h : 0 < runLength p cs) :
    cs.take (runLength p cs) ≠ [] := by
  refine List.ne_nil_of_length_pos ?_
  rw [List.length_take]
  have := runLength_le p cs
  omega

theorem linkage_digits {cs : Text} (h : 0 < runLength Char.isDigit cs) (inWord : Bool) :
    linkage inWord (cs.take (runLength Char.isDigit cs)) = some true :=
  linkage_of_isDigit (take_runLength_ne_nil h)
    (forall_mem_take_of_le_runLength (p := Char.isDigit) (Nat.le_refl _)) inWord

theorem linkage_integer (inWord : Bool) (cs : Text) :
    linkage inWord (cs.take (integerLength cs)) =
      some (if integerLength cs = 0 then inWord else true) := by
  cases cs with
  | nil => rfl
  | cons c cs =>
    rw [integerLength]
    split
    next hzero =>
      rw [beq_iff_eq] at hzero
      subst hzero
      cases inWord <;> rfl
    · split
      next hdigit =>
        have hdigits := @forall_mem_take_of_le_runLength Char.isDigit cs _ (Nat.le_refl _)
        rw [List.take_succ_cons, if_neg (Nat.succ_ne_zero _)]
        exact linkage_of_isDigit (List.cons_ne_nil _ _) (List.forall_mem_cons.2 ⟨hdigit, hdigits⟩) _
      · rfl

theorem linkage_fraction (inWord : Bool) (cs : Text) :
    linkage inWord (cs.take (fractionLength cs)) =
      some (if fractionLength cs = 0 then inWord else true) := by
  unfold fractionLength
  split
  next rest =>
    split
    · rfl
    next n hn =>
      have hpos : 0 < runLength Char.isDigit rest := by omega
      have hdigits := linkage_digits hpos false
      rw [hn] at hdigits
      rw [List.take_succ_cons, linkage, if_neg (Nat.succ_ne_zero _)]
      cases inWord <;> exact hdigits
  · rfl

theorem linkage_exponent (cs : Text) :
    linkage true (cs.take (exponentLength cs)) = some true := by
  cases cs with
  | nil => rfl
  | cons e cs =>
    rw [exponentLength]
    split
    next he =>
      have hletter : isWordPart e := by
        simp only [Bool.or_eq_true, beq_iff_eq] at he
        rcases he with rfl | rfl <;> rfl
      dsimp only
      split
      · rfl
      next n hn =>
        have hpos :
            0 < runLength Char.isDigit (cs.drop (if cs.head? == some '-' then 1 else 0)) := by
          omega
        have hdigits := linkage_digits hpos
        rw [hn] at hdigits
        rw [show n + 2 + (if cs.head? == some '-' then 1 else 0) =
          (if cs.head? == some '-' then 1 else 0) + (n + 1) + 1 by omega,
            List.take_succ_cons, linkage,
          hletter, List.take_add, linkage_append]
        split at hdigits
        next hhead =>
          cases cs with
          | nil => simp at hhead
          | cons c cs =>
            have hc : c = '-' := by simpa using hhead
            subst hc
            exact hdigits false
        next hhead =>
          rw [if_neg hhead]
          exact hdigits true
    · rfl

theorem linkage_suffix (cs : Text) : linkage true (cs.take (suffixLength cs)) = some true := by
  cases cs with
  | nil => rfl
  | cons c cs =>
    rw [suffixLength]
    split
    next hc =>
      simp only [Bool.or_eq_true, beq_iff_eq] at hc
      rcases hc with rfl | rfl <;> rfl
    · rfl

/-- In a number, every letter stands behind a letter or digit. -/
theorem linkage_decimal {cs : Text} {n : Nat} (h : decimalLength? cs = some n) (inWord : Bool) :
    linkage inWord (cs.take n) = some true := by
  simp only [decimalLength?] at h
  split at h
  · cases h
  next hmantissa =>
    cases h
    have hnumber : linkage inWord
        (cs.take (integerLength cs + fractionLength (cs.drop (integerLength cs)))) = some true := by
      rw [List.take_add, linkage_append, linkage_integer, Option.bind_some, linkage_fraction]
      split
      next hfraction => rw [if_neg (by omega)]
      · rfl
    rw [List.take_add, linkage_append, List.take_add, linkage_append, hnumber, Option.bind_some,
      linkage_exponent, Option.bind_some, linkage_suffix]

/-! ## Tokens -/

/-- What is known about a token `c :: t` in front of `rest` that is no literal. -/
structure PlainToken (c : Char) (t rest : Text) : Prop where
  isPlain : ∀ d ∈ c :: t, isPlain d
  slash : '/' ∉ t
  /-- A token that begins like a word is a whole word. -/
  word : isWordStart c → (t ++ rest).takeWhile isWordPart = t
  linkage : (linkage (isWordPart c) t).isSome

/-- The characters of numbers. -/
def isNumeric (c : Char) : Bool := isWordPart c || c == '.' || c == '-'

theorem isPlain_of_isNumeric {c : Char} (h : isNumeric c) : IdlFrontend.isPlain c := by
  simp only [isNumeric, Bool.or_eq_true, beq_iff_eq] at h
  rcases h with (h | rfl) | rfl
  · rw [IdlFrontend.isPlain, h]
    rfl
  · rfl
  · rfl

theorem plainToken_of_isNumeric {c : Char} {t : Text} (hnumeric : ∀ d ∈ c :: t, isNumeric d)
    (hlinkage : IdlFrontend.linkage false (c :: t) = some true) (rest : Text) :
    PlainToken c t rest ∧ isWordStart c = false := by
  have hstart : isWordStart c = false := by
    refine Bool.eq_false_iff.2 fun hstart => ?_
    rw [IdlFrontend.linkage, hstart] at hlinkage
    cases hlinkage
  rw [IdlFrontend.linkage, hstart] at hlinkage
  refine ⟨⟨fun d hd => isPlain_of_isNumeric (hnumeric d hd), fun hslash => ?_, fun h => ?_,
    ?_⟩, hstart⟩
  · exact absurd (hnumeric '/' (List.mem_cons_of_mem _ hslash)) (by decide)
  · rw [hstart] at h
    cases h
  · exact Option.isSome_of_eq_some hlinkage

theorem isNumeric_of_isWordPart (c : Char) (h : isWordPart c) : isNumeric c := by
  rw [isNumeric, h]
  rfl

theorem plainToken_of_zero {t : Text} (hpart : ∀ d ∈ '0' :: t, isWordPart d) (rest : Text) :
    PlainToken '0' t rest ∧ isWordStart '0' = false := by
  refine plainToken_of_isNumeric (fun d hd => isNumeric_of_isWordPart d (hpart d hd)) ?_ rest
  exact linkage_of_isWordPart (List.forall_mem_cons.1 hpart).2

theorem plainToken_of_number {p : Pattern} (hp : p ∈ [octal, hexadecimal, decimal])
    {lineStart : Bool} {c : Char} {cs : Text} {n : Nat}
    (h : p.length? lineStart (c :: cs) = some (n + 1)) (rest : Text) :
    PlainToken c (cs.take n) rest ∧ isWordStart c = false := by
  have hself : ∀ d, isWordPart d → isWordPart d := fun _ hd => hd
  simp only [List.mem_cons, List.not_mem_nil, or_false] at hp
  rcases hp with rfl | rfl | rfl
  · have hpart := forall_mem_take_of_le_runLength (octalLength?_le_runLength hself h)
    have hzero : c = '0' := by
      refine Decidable.byContradiction fun hne => ?_
      rw [length?, octalLength?.eq_2 _ fun _ heq => hne (List.cons.inj heq).1] at h
      cases h
    subst hzero
    exact plainToken_of_zero hpart rest
  · have hpart := forall_mem_take_of_le_runLength (hexadecimalLength?_le_runLength hself h)
    have hzero : c = '0' := by
      refine Decidable.byContradiction fun hne => ?_
      rw [length?, hexadecimalLength?.eq_2 _ fun _ _ heq => hne (List.cons.inj heq).1] at h
      cases h
    subst hzero
    exact plainToken_of_zero hpart rest
  · have hrun := decimalLength?_le_runLength isNumeric_of_isWordPart rfl rfl h
    exact plainToken_of_isNumeric (forall_mem_take_of_le_runLength hrun)
      (linkage_decimal h false) rest

theorem plainToken_of_word {lineStart : Bool} {c : Char} {cs : Text} {n : Nat}
    (h : word.length? lineStart (c :: cs) = some (n + 1)) {rest : Text} (hrest : cs.drop n = rest) :
    PlainToken c (cs.take n) rest := by
  simp only [length?, wordLength?] at h
  split at h
  next hstart =>
    cases h
    subst hrest
    have hpart := @forall_mem_take_of_le_runLength isWordPart cs _ (Nat.le_refl _)
    have hc := isWordPart_of_isWordStart hstart
    refine ⟨List.forall_mem_cons.2 ⟨?_, fun d hd => ?_⟩, fun hslash => ?_, fun _ => ?_, ?_⟩
    · exact isPlain_of_isNumeric (isNumeric_of_isWordPart c hc)
    · exact isPlain_of_isNumeric (isNumeric_of_isWordPart d (hpart d hd))
    · exact absurd (hpart '/' hslash) (by decide)
    · rw [List.take_append_drop]
      exact List.prefix_iff_eq_take.1 (List.takeWhile_prefix isWordPart)
    · rw [hc, linkage_of_isWordPart hpart]
      rfl
  · cases h

/-- A mark that tokens of the ordinary mode are made of. -/
def isPunctuation : Pattern → Bool
  | mark c cs => (c :: cs).all (fun d => isPlain d && !isWordStart d) && cs.all (· != '/')
  | _ => false

theorem plainToken_of_mark {d : Char} {m : Text} (hp : (mark d m).isPunctuation) {lineStart : Bool}
    {c : Char} {cs : Text} {n : Nat} (h : (mark d m).length? lineStart (c :: cs) = some (n + 1))
    (rest : Text) : PlainToken c (cs.take n) rest ∧ isWordStart c = false := by
  simp only [length?] at h
  split at h
  next hpre =>
    obtain ⟨tail, heq⟩ := List.isPrefixOf_iff_prefix.1 hpre
    obtain ⟨rfl, rfl⟩ := List.cons.inj heq
    cases h
    show PlainToken d ((m ++ tail).take m.length) rest ∧ _
    rw [List.take_left]
    simp only [isPunctuation, List.all_cons, Bool.and_eq_true, List.all_eq_true, Bool.not_eq_true',
      bne_iff_ne] at hp
    obtain ⟨⟨⟨hd, hstart⟩, hm⟩, hslash⟩ := hp
    refine ⟨⟨List.forall_mem_cons.2 ⟨hd, fun e he => (hm e he).1⟩, fun hmem => hslash '/' hmem rfl,
      fun h => ?_, isSome_linkage (fun e he => (hm e he).2) _⟩, hstart⟩
    rw [hstart] at h
    cases h
  · cases h

/-! ## Literals -/

/-- A literal is closed by its last character. -/
theorem quotedLength?_take {quote : Char} {cs : Text} {n : Nat}
    (h : quotedLength? quote cs = some n) : quotedLength? quote (cs.take n) = some n := by
  fun_induction quotedLength? quote cs generalizing n with
  | case1 | case2 => cases h
  | case3 d cs ih =>
    obtain ⟨k, hk, rfl⟩ := Option.map_eq_some_iff.1 h
    show (quotedLength? quote (cs.take k)).map (· + 2) = _
    rw [ih hk]
    rfl
  | case4 c cs hlast hescape hquote | case5 c cs hlast hescape hquote ih =>
    have hc := ne_backslash hlast hescape
    first
    | cases h
      rw [List.take_succ_cons, quotedLength?_cons hc, if_pos hquote]
    | obtain ⟨k, hk, rfl⟩ := Option.map_eq_some_iff.1 h
      rw [List.take_succ_cons, quotedLength?_cons hc, if_neg hquote, ih hk]
      rfl

end Pattern

end IdlFrontend
