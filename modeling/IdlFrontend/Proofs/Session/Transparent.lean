import IdlFrontend.Proofs.Layout.Output
import IdlFrontend.Proofs.Layout.PlainSource
import IdlFrontend.Proofs.Session.PlainText

/-!
# Preprocessing a plain source

A plain source need not be preprocessed: the lexer reads the same tokens from the
output as from the source, on the same lines.

Results:

* `line_lt_of_mem_scanFrom`: the lines of lexemes are those of the text.
* `ofText_preprocess`: preprocessing a plain source succeeds and changes no token.
-/

namespace IdlFrontend

namespace Lexeme

theorem line_lt_of_mem_scanFrom {line : Nat} {cs : Text} :
    ∀ t ∈ scanFrom line cs, t.line < line + cs.length := by
  fun_induction scanFrom line cs with
  | case1 => exact fun _ h => by cases h
  | case2 line c cs kind n _ text ih =>
    have hcount : text.count '\n' ≤ text.length := List.count_le_length
    have hlength : text.length + (cs.drop n).length = (c :: cs).length := by
      rw [← List.length_append, List.cons_append, List.take_append_drop]
    refine List.forall_mem_cons.2 ⟨?_, fun t ht => ?_⟩
    · show line < line + (cs.length + 1)
      omega
    · have hline := ih t ht
      omega

end Lexeme

theorem directive?_of_no_sign {group : List Lexeme} (h : ∀ t ∈ group, t.isPunct '#' = false) :
    directive? group = none := by
  unfold directive?
  split
  next hash rest heq =>
    have hmem : hash ∈ group := by
      refine (List.dropWhile_suffix (·.kind == .space)).subset ?_
      rw [heq]
      exact List.mem_cons_self
    rw [if_neg (by simp [h hash hmem])]
  · rfl

theorem Session.renumber_eq_self {ts : List Lexeme} (h : ∀ t ∈ ts, t.line < unsignedLimit) :
    renumber 0 ts = ts := by
  refine (List.map_congr_left fun t ht => ?_).trans (List.map_id ts)
  rw [shiftLine_zero (h t ht)]
  rfl

/-- **Preprocessing a plain source changes no token.** Whatever the file is called and
    wherever included files come from, preprocessing succeeds, and the lexer reads the
    tokens of the source from the output, each on its line. -/
theorem ofText_preprocess {m : Type → Type} [Monad m] [LawfulMonad m] (store : SourceStore m)
    (file : SourceFile) {dialect : Dialect} (h : PlainSource dialect file.contents)
    {ts : List Token} (hts : Token.ofText dialect file.contents = .ok ts) :
    ∃ text, preprocess store [] file = pure (.ok text) ∧ Token.ofText dialect text = .ok ts := by
  obtain ⟨ps, hlaid, rfl⟩ := h.exists_laid hts
  have htidy : Source.joinContinuations (Source.replaceTrigraphs file.contents) =
      Source.tidy file.contents := by
    rw [Source.replaceTrigraphs_eq_self h.not_trigraph,
      Source.joinContinuations_eq_tidy h.not_continued]
  have hscanned := hlaid.scanned 1
  have hlines : ∀ t ∈ Lexeme.scan (Source.tidy file.contents), t.line < unsignedLimit := by
    intro t ht
    have hline := Lexeme.line_lt_of_mem_scanFrom t ht
    have hle := Source.length_tidy_le file.contents
    have hsize := h.size
    omega
  have hflatten : (Session.sourceLines file.contents).flatten =
      Lexeme.scan (Source.tidy file.contents) := by
    rw [← htidy]
    exact Lexeme.flatten_lines _
  have hgroups : ∀ group ∈ Session.sourceLines file.contents,
      directive? (Session.renumber 0 group) = none := by
    intro group hgroup
    have hmem : ∀ t ∈ group, t ∈ Lexeme.scan (Source.tidy file.contents) := by
      rw [← hflatten]
      exact fun t ht => List.mem_flatten_of_mem hgroup ht
    rw [Session.renumber_eq_self fun t ht => hlines t (hmem t ht)]
    exact directive?_of_no_sign fun t ht => (hscanned.forall_mem t (hmem t ht)).1
  have hwords :
      ∀ t ∈ Lexeme.scan (Source.joinContinuations (Source.replaceTrigraphs file.contents)),
      t.kind = .word → t.text ≠ "__FILE__".toList ∧ t.text ≠ "__LINE__".toList := by
    intro t ht hword
    rw [htidy] at ht
    have hrequest := (hscanned.forall_mem t ht).2 hword
    refine ⟨?_, ?_⟩ <;> intro heq <;> refine hrequest ?_ <;> rw [heq]
    · exact List.mem_cons_self
    · exact List.mem_cons_of_mem _ List.mem_cons_self
  have hmarked := preprocessMarked_of_no_macros store file hgroups hwords
  rw [htidy, Session.renumber_eq_self hlines] at hmarked
  refine ⟨(({} : MarkedText).push file.name (Lexeme.scan (Source.tidy file.contents))).text, ?_, ?_⟩
  · rw [preprocess, hmarked, pure_bind]
    rfl
  · have hbefore : Lexer.Before dialect
        ((Cursor.writeAll {} file.name (Lexeme.scan (Source.tidy file.contents))).1.flatMap
        Piece.text) 1 true (Lexer.ofText dialect
          (({} : MarkedText).push file.name (Lexeme.scan (Source.tidy file.contents))).text) := by
      refine ⟨rfl, ?_, rfl, rfl, rfl, rfl⟩
      exact MarkedText.text_push {} file.name _
    obtain ⟨htokens, hok⟩ := hscanned.tokenize_writeAll hlines (fun h => by cases h) hbefore
    rw [UInt64.ofNat_one] at htokens
    rw [← htokens]
    exact Lexer.ofText_of_tokenize_ok hok

/-- A source with a comment over two lines, a literal, white space at the end of a line
    and both kinds of line breaks. -/
theorem ofText_preprocess_commented :
    ∃ (cs text : Text) (ts : List Token),
      cs = "const char c /* a\n b */ ='x'; // d \r\nconst long e=07;\n".toList ∧
      PlainSource .omg cs ∧ Token.ofText .omg cs = .ok ts ∧
      preprocess (m := Id) (SourceStore.ofList []) [] ⟨['f'], cs⟩ = pure (.ok text) ∧
      Token.ofText .omg text = .ok ts := by
  have hcheck : checkPlain 24 .omg
      "const char c /* a\n b */ ='x'; // d \r\nconst long e=07;\n".toList := by
    decide +kernel
  generalize hcs : "const char c /* a\n b */ ='x'; // d \r\nconst long e=07;\n".toList =
    cs at hcheck
  obtain ⟨hplain, ts, hts⟩ := PlainSource.of_checkPlain hcheck
  obtain ⟨text, hpreprocess, htext⟩ := ofText_preprocess (m := Id) (SourceStore.ofList [])
    ⟨['f'], cs⟩ hplain hts
  exact ⟨cs, text, ts, rfl, hplain, hts, hpreprocess, htext⟩

end IdlFrontend
