import IdlFrontend.Preprocess.MarkedText
import IdlFrontend.Proofs.Lexer.Modes

/-!
# Reading a marker

A marker line is one line, whatever the name of the file is. At the start of a line
the lexer reads it by the rule for markers, in every mode that is possible there.

Results:

* `le_toNat_of_mem_escapeName`: an escaped name has no control characters.
* `marker_eq_append`: a marker is characters of one line and a line feed.
* `markedLine?_marker`: the number in a marker is the one it was written for.
* `Lexer.Coherent.step_marker`: the step at a marker.
* `Lexer.step?_marker`: there is one in every mode in which no text runs over the ends of lines.
-/

namespace IdlFrontend

open Pattern (isInline runLength)

/-! ## The characters of a marker -/

theorem le_toNat_of_mem_toDigits {n : Nat} : ∀ c ∈ Nat.toDigits 16 n, 0x20 ≤ c.toNat := by
  have hdigit : ∀ d < 16, 0x20 ≤ (Nat.digitChar d).toNat := by decide
  induction n using Nat.strongRecOn with
  | ind n ih =>
    by_cases hn : n < 16
    · rw [Nat.toDigits_of_lt_base hn]
      exact List.forall_mem_singleton.2 (hdigit n hn)
    · rw [Nat.toDigits_of_base_le (by omega) (by omega)]
      refine List.forall_mem_append.2 ⟨ih (n / 16) (by omega), ?_⟩
      exact List.forall_mem_singleton.2 (hdigit _ (Nat.mod_lt _ (by omega)))

theorem le_toNat_of_mem_escapeByCode {c d : Char} (hd : d ∈ escapeByCode c) : 0x20 ≤ d.toNat := by
  simp only [escapeByCode, List.mem_cons, List.leftpad, List.mem_append, List.mem_replicate] at hd
  rcases hd with rfl | rfl | ⟨-, rfl⟩ | hd
  · decide
  · decide
  · decide
  · exact le_toNat_of_mem_toDigits d hd

theorem le_toNat_of_mem_escapeChar {c d : Char} (hd : d ∈ escapeChar c) : 0x20 ≤ d.toNat := by
  have hshort {cs : Text} (h : cs.all (0x20 ≤ ·.toNat)) (hd : d ∈ cs) : 0x20 ≤ d.toNat :=
    of_decide_eq_true (List.all_eq_true.1 h d hd)
  unfold escapeChar at hd
  split at hd
  case h_8 =>
    split at hd
    · exact le_toNat_of_mem_escapeByCode hd
    next hplain =>
      cases List.mem_singleton.1 hd
      simp only [Bool.or_eq_true, decide_eq_true_eq, not_or] at hplain
      omega
  all_goals exact hshort (by decide) hd

/-- No control character is left in an escaped name. -/
theorem le_toNat_of_mem_escapeName {name : Text} {d : Char} (hd : d ∈ escapeName name) :
    0x20 ≤ d.toNat := by
  obtain ⟨c, -, hc⟩ := List.mem_flatMap.1 hd
  exact le_toNat_of_mem_escapeChar hc

theorem isInline_of_mem_escapeName {name : Text} {d : Char} (hd : d ∈ escapeName name) :
    isInline d := by
  have hle := le_toNat_of_mem_escapeName hd
  simp only [isInline, isLineEnd, Bool.not_eq_true', Bool.or_eq_false_iff, beq_eq_false_iff_ne]
  constructor <;> rintro rfl <;> exact absurd hle (by decide)

/-- The characters of a marker before its line feed. -/
def markerLine (line : Nat) (file : Text) : Text :=
  '#' :: ' ' :: (Text.ofNat line ++ ' ' :: '"' :: (escapeName file ++ ['"']))

theorem marker_eq_append (line : Nat) (file : Text) :
    marker line file = markerLine line file ++ ['\n'] := by
  simp [marker, markerLine]

theorem isInline_of_mem_markerLine {line : Nat} {file : Text} :
    ∀ c ∈ markerLine line file, isInline c := by
  intro c hc
  simp only [markerLine, List.mem_cons, List.mem_append, List.not_mem_nil, or_false] at hc
  rcases hc with rfl | rfl | hc | rfl | rfl | hc | rfl
  · rfl
  · rfl
  · exact Pattern.isInline_of_isDigit c (Text.isDigit_of_mem_ofNat c hc)
  · rfl
  · rfl
  · exact isInline_of_mem_escapeName hc
  · rfl

theorem runLength_inline_append {cs : Text} (h : ∀ c ∈ cs, isInline c) (rest : Text) :
    runLength isInline (cs ++ '\n' :: rest) = cs.length := by
  rw [runLength, List.takeWhile_append_of_pos h, List.takeWhile_cons_of_neg (by decide),
    List.append_nil]

theorem lineLength_marker (line : Nat) (file rest : Text) :
    Pattern.lineLength (marker line file ++ rest) = (marker line file).length := by
  have hinline : ∀ c ∈ markerLine line file, isInline c := isInline_of_mem_markerLine
  have hrun := runLength_inline_append hinline rest
  rw [marker_eq_append, List.append_assoc, List.cons_append, List.nil_append]
  show runLength isInline _ + Pattern.lineBreakLength (List.drop (runLength isInline _) _) = _
  rw [hrun, List.drop_left, List.length_append]
  rfl

theorem exists_digit (line : Nat) : ∃ d ds, Text.ofNat line = d :: ds ∧ d.isDigit := by
  obtain ⟨d, ds, hdigits⟩ := List.exists_cons_of_ne_nil (Text.ofNat_ne_nil line)
  have hmem : d ∈ Text.ofNat line := by
    rw [hdigits]
    exact List.mem_cons_self
  exact ⟨d, ds, hdigits, Text.isDigit_of_mem_ofNat d hmem⟩

theorem afterNumberSign?_marker (line : Nat) (file rest : Text) :
    Pattern.afterNumberSign? (marker line file ++ rest) =
      some (Text.ofNat line ++ ' ' :: '"' :: (escapeName file ++ '"' :: '\n' :: rest)) := by
  obtain ⟨d, ds, hdigits, hd⟩ := exists_digit line
  have hblank : isBlank d = false := by
    refine Bool.eq_false_iff.2 fun hblank => ?_
    simp only [isBlank, Bool.or_eq_true, beq_iff_eq] at hblank
    rcases hblank with ((rfl | rfl) | rfl) | rfl <;> exact absurd hd (by decide)
  have hdrop (cs : Text) : (d :: cs).dropWhile isBlank = d :: cs :=
    List.dropWhile_cons_of_neg (by rw [hblank]; decide)
  rw [marker_eq_append, markerLine, hdigits]
  simp only [List.cons_append, List.append_assoc, List.nil_append]
  rw [Pattern.afterNumberSign?, List.dropWhile_cons_of_neg (by decide)]
  show some ((' ' :: d :: _).dropWhile isBlank) = _
  rw [List.dropWhile_cons_of_pos (by decide), hdrop]

theorem isPrefixOf_digit {c d : Char} (hc : c.isDigit = false) (hd : d.isDigit) (cs ds : Text) :
    (c :: cs).isPrefixOf (d :: ds) = false := by
  have hne : (c == d) = false := by
    rw [beq_eq_false_iff_ne]
    rintro rfl
    rw [hc] at hd
    cases hd
  rw [List.isPrefixOf_cons_cons, hne, Bool.false_and]

theorem afterLineWord?_marker (line : Nat) (file rest : Text) :
    Pattern.afterLineWord? (marker line file ++ rest) =
      some (Text.ofNat line ++ ' ' :: '"' :: (escapeName file ++ '"' :: '\n' :: rest)) := by
  obtain ⟨d, ds, hdigits, hd⟩ := exists_digit line
  have hword (cs : Text) : "line".toList.isPrefixOf (d :: cs) = false :=
    isPrefixOf_digit rfl hd _ cs
  rw [Pattern.afterLineWord?, afterNumberSign?_marker, hdigits, List.cons_append]
  simp only [Option.bind_eq_bind, Option.bind_some, hword]
  rfl

/-- The pattern of markers matches the whole of a marker. -/
theorem lineMarkerLength?_marker (line : Nat) (file rest : Text) :
    Pattern.lineMarkerLength? (marker line file ++ rest) = some (marker line file).length := by
  obtain ⟨d, ds, hdigits, hd⟩ := exists_digit line
  have hrun : runLength isInline (marker line file ++ rest) = (markerLine line file).length := by
    rw [marker_eq_append, List.append_assoc]
    exact runLength_inline_append isInline_of_mem_markerLine rest
  have hlt : runLength isInline (marker line file ++ rest) < (marker line file ++ rest).length := by
    rw [hrun, marker_eq_append]
    simp only [List.length_append, List.length_cons]
    omega
  rw [Pattern.lineMarkerLength?, afterLineWord?_marker, hdigits, ← lineLength_marker line file rest]
  refine if_pos ?_
  rw [Bool.and_eq_true, decide_eq_true_eq]
  exact ⟨hd, hlt⟩

theorem markedLine?_marker {line : Nat} (hline : line < unsignedLimit) (file : Text) :
    markedLine? (marker line file) = some line := by
  have hbody := afterLineWord?_marker line file []
  rw [List.append_nil] at hbody
  rw [markedLine?, hbody]
  show Text.lineNumber? ((Text.ofNat line ++ _).takeWhile Char.isDigit) = _
  rw [List.takeWhile_append_of_pos Text.isDigit_of_mem_ofNat,
    List.takeWhile_cons_of_neg (by decide), List.append_nil, Text.lineNumber?, Text.ofDigits?_ofNat]
  simpa using hline

/-! ## The step at a marker -/

theorem afterPragma?_marker (line : Nat) (file rest : Text) :
    Pattern.afterPragma? (marker line file ++ rest) = none := by
  obtain ⟨d, ds, hdigits, hd⟩ := exists_digit line
  have hword (cs : Text) : "pragma".toList.isPrefixOf (d :: cs) = false :=
    isPrefixOf_digit rfl hd _ cs
  rw [Pattern.afterPragma?, afterNumberSign?_marker, hdigits, List.cons_append]
  simp only [Option.bind_eq_bind, Option.bind_some, hword]
  rfl

namespace Lexer

variable {read : Text} {l : Lexer} {line : Nat} {file rest : Text}

/-- The rules that can read a marker at the start of a line are the one for it and those for
    native types and code fragments. -/
theorem rule_cases_of_marker (hstart : l.atLineStart) (hrest : l.rest = marker line file ++ rest)
    {n : Nat} {r : Rule} (hr : r ∈ Rule.inMode l.mode)
    (hlen : r.length? l.atLineStart l.rest = some n) :
    r = ⟨.lineMarker, .lineMarker, .stay⟩ ∨ (r.pattern = .nativeType ∧ l.mode = .nativeType) ∨
      (r.pattern = .fragmentBody ∧ l.mode = .fragment) := by
  have hrules : ∀ mode, ∀ r ∈ Rule.inMode mode, r.pattern.canBegin '#' →
      r.pattern = .pragma ∨ r = ⟨.lineMarker, .lineMarker, .stay⟩ ∨
        (r.pattern = .nativeType ∧ mode = .nativeType) ∨
        (r.pattern = .fragmentBody ∧ mode = .fragment) := by
    intro mode
    cases mode <;> decide
  have hbegin : r.pattern.canBegin '#' := by
    rw [Rule.length?, hrest, marker_eq_append, markerLine] at hlen
    exact Pattern.canBegin_of_length? hlen
  rcases hrules l.mode r hr hbegin with hp | hcases
  · rw [Rule.length?, hp, hrest, Pattern.length?, hstart, if_pos rfl, afterPragma?_marker] at hlen
    cases hlen
  · exact hcases

/-- The only rule that reads a marker at the start of a line is the one for it. -/
theorem Coherent.rule_of_marker (h : Coherent read l) (hstart : l.atLineStart)
    (hrest : l.rest = marker line file ++ rest) {n : Nat} {r : Rule}
    (hr : r ∈ Rule.inMode l.mode) (hlen : r.length? l.atLineStart l.rest = some n) :
    r = ⟨.lineMarker, .lineMarker, .stay⟩ := by
  rcases rule_cases_of_marker hstart hrest hr hlen with hmarker | ⟨-, hmode⟩ | ⟨hp, hmode⟩
  · exact hmarker
  · have hhead := h.nativeType hmode hstart '#' (by rw [hrest, marker_eq_append, markerLine]; rfl)
    exact absurd hhead (by decide)
  · rw [Rule.length?, hp, Pattern.length?, h.fragment hmode hstart] at hlen
    cases hlen

/-- How many characters the rule for markers reads. -/
theorem length?_marker (hstart : l.atLineStart) (hrest : l.rest = marker line file ++ rest) :
    (⟨.lineMarker, .lineMarker, .stay⟩ : Rule).length? l.atLineStart l.rest =
      some (marker line file).length := by
  rw [Rule.length?, Pattern.length?, hstart, if_pos rfl, hrest, lineMarkerLength?_marker]

/-- What reading a marker by the rule for it does. -/
theorem read_marker (hrest : l.rest = marker line file ++ rest) (hline : line < unsignedLimit) :
    l.read (marker line file).length ⟨.lineMarker, .lineMarker, .stay⟩ =
      { text := marker line file
        rule := ⟨.lineMarker, .lineMarker, .stay⟩
        token? := none
        next := { l with rest, atLineStart := true, line := .ofNat line } } := by
  have hlast : (marker line file).getLast? = some '\n' := by
    rw [marker_eq_append, List.getLast?_concat]
  simp [Lexer.read, Meaning.kind?, skip, note, change, markedLine?_marker hline, hlast,
    isLineEnd, hrest]

theorem Coherent.step_marker (h : Coherent read l) (hstart : l.atLineStart)
    (hrest : l.rest = marker line file ++ rest) {s : Step} (hs : l.step? = some s) :
    s.text = marker line file ∧ s.rule = ⟨.lineMarker, .lineMarker, .stay⟩ ∧
      (line < unsignedLimit → s.next.line.toNat = line) := by
  obtain ⟨n, r, hmatch, rfl⟩ := step?_eq_some_iff.1 hs
  obtain ⟨hr, hlen⟩ := Rule.longestMatch_mem hmatch
  obtain rfl := h.rule_of_marker hstart hrest hr hlen
  obtain rfl := Option.some.inj ((length?_marker hstart hrest).symm.trans hlen)
  refine ⟨?_, rfl, fun hline => by rw [read_marker hrest hline, UInt64.toNat_ofNat_of_lt' hline]⟩
  rw [Lexer.read, hrest, List.take_left]

/-- In a mode in which no text runs over the ends of lines, the lexer reads a marker in one step. -/
theorem step?_marker (hmode : l.mode ≠ .nativeType ∧ l.mode ≠ .fragment) (hstart : l.atLineStart)
    (hrest : l.rest = marker line file ++ rest) :
    l.step? = some (l.read (marker line file).length ⟨.lineMarker, .lineMarker, .stay⟩) := by
  have hmarker := length?_marker hstart hrest
  cases hmatch : Rule.longestMatch l.atLineStart l.rest (Rule.inMode l.mode) with
  | none =>
    have hmem : (⟨.lineMarker, .lineMarker, .stay⟩ : Rule) ∈ Rule.inMode l.mode :=
      List.mem_append_right _ (by decide)
    rw [Rule.longestMatch_eq_none_iff.1 hmatch _ hmem] at hmarker
    cases hmarker
  | some found =>
    obtain ⟨n, r⟩ := found
    obtain ⟨hr, hlen⟩ := Rule.longestMatch_mem hmatch
    rcases rule_cases_of_marker hstart hrest hr hlen with rfl | ⟨-, hnative⟩ | ⟨-, hfragment⟩
    · obtain rfl := Option.some.inj (hmarker.symm.trans hlen)
      rw [step?, hmatch, Option.map_some]
    · exact absurd hnative hmode.1
    · exact absurd hfragment hmode.2

end Lexer

end IdlFrontend
