import IdlFrontend.Proofs.Layout.Steps
import IdlFrontend.Proofs.Source.Tidy

/-!
# Plain sources

A source is plain if it asks nothing of the preprocessor and the lexer reads it in its
ordinary mode alone.

Results:

* `exists_line_of_lineStart`: what a text goes on with at the start of a line is found
  on one of its lines.
* `Lexer.plainStep_of_mem_steps`: every step of the lexer through a plain source is plain.
-/

namespace IdlFrontend

namespace Text

theorem head?_dropWhile_takeWhile {p q : Char → Bool} (h : ∀ c, p c → q c) {c : Char} (hc : q c)
    {cs : Text} (hhead : (cs.dropWhile p).head? = some c) :
    ((cs.takeWhile q).dropWhile p).head? = some c := by
  induction cs with
  | nil => cases hhead
  | cons d ds ih =>
    by_cases hd : p d
    · rw [List.dropWhile_cons_of_pos hd] at hhead
      rw [List.takeWhile_cons_of_pos (h d hd), List.dropWhile_cons_of_pos hd]
      exact ih hhead
    · rw [List.dropWhile_cons_of_neg hd] at hhead
      obtain rfl : d = c := Option.some.inj hhead
      rw [List.takeWhile_cons_of_pos hc, List.dropWhile_cons_of_neg hd]
      rfl

/-- What a text goes on with at the start of a line is found on one of its lines. -/
theorem exists_line_of_lineStart {read rest : Text}
    (hread : (read.getLast?.map isLineEnd).getD true) {c : Char} (hc : isLineEnd c = false)
    (hhead : (rest.dropWhile isBlank).head? = some c) :
    ∃ line ∈ (read ++ rest).physicalLines, (line.dropWhile isBlank).head? = some c := by
  have hblank : ∀ d, isBlank d → (!isLineEnd d) = true := fun d hd => by
    rw [isLineEnd_of_isBlank hd]
    rfl
  have hfeed : rest.head? ≠ some '\n' := by
    intro hfeed
    obtain ⟨ds, rfl⟩ := List.head?_eq_some_iff.1 hfeed
    obtain rfl : '\n' = c := Option.some.inj hhead
    cases hc
  cases rest with
  | nil => cases hhead
  | cons d ds =>
    have hends : ∀ e ∈ read.getLast?, isLineEnd e := fun e he => by
      rwa [Option.mem_def.1 he] at hread
    obtain ⟨line, others, hrest⟩ := List.exists_cons_of_ne_nil (physicalLines_ne_nil d ds)
    refine ⟨line, ?_, ?_⟩
    · rw [Source.physicalLines_append_of_ends hends fun _ => hfeed, hrest]
      exact List.mem_append_right _ List.mem_cons_self
    · rw [Source.head_physicalLines hrest]
      exact head?_dropWhile_takeWhile hblank (by rw [hc]; rfl) hhead

end Text

/-- A source without directives, requests for its name or lines, trigraphs and continued
    lines, that the lexer reads in its ordinary mode, with comments that are closed and
    literals that are closed on their line. -/
structure PlainSource (dialect : Dialect) (cs : Text) : Prop where
  ordinary : ∀ s ∈ (Lexer.ofText dialect cs).steps, s.next.mode = .ordinary
  not_sign : ∀ line ∈ cs.physicalLines, (line.dropWhile isBlank).head? ≠ some '#'
  not_trigraph : ∀ c, (Source.trigraph? c).isSome → ¬['?', '?', c] <:+: cs
  not_continued : ∀ line ∈ cs.physicalLines,
    Source.isContinued (Text.trimEnd isWhiteSpace line) = false
  not_request : ∀ t ∈ (Lexer.ofText dialect cs).tokenize.1, t.kind = .identifier →
    t.text ∉ ["__FILE__".toList, "__LINE__".toList]
  comment_closed : ∀ s ∈ (Lexer.ofText dialect cs).steps, ∀ rest,
    s.text ++ s.next.rest = '/' :: '*' :: rest → (Pattern.lengthBefore? '*' '/' rest).isSome
  literal_closed : ∀ t ∈ (Lexer.ofText dialect cs).tokenize.1, t.kind ∈ [.character, .string] →
    ∀ c ∈ t.text, isLineEnd c = false
  /-- The lines of a text in memory can be counted in 64 bits. -/
  size : cs.length < unsignedLimit

namespace Lexer

/-- What a step of a plain source does not ask for. -/
def NoRequest (text : Text) : Prop := text ∉ ["__FILE__".toList, "__LINE__".toList]

variable {dialect : Dialect} {cs read : Text} {l : Lexer} {s : Step}

/-- A comment is read wherever one is opened, if it is closed. -/
theorem mem_comment_of_opensComment (hmode : l.mode = .ordinary) (hs : l.step? = some s)
    (hclosed : ∀ rest, l.rest = '/' :: '*' :: rest → (Pattern.lengthBefore? '*' '/' rest).isSome)
    (hopens : opensComment l.rest) : s.rule.pattern ∈ [.lineComment, .blockComment] := by
  have hrules : ∀ r ∈ Rule.inMode .ordinary, r.pattern.canBegin '/' →
      r.pattern ∈ [.lineComment, .blockComment] ∨ r.pattern = .mark '/' [] := by decide
  obtain ⟨n, r, hmatch, rfl⟩ := step?_eq_some_iff.1 hs
  rw [hmode] at hmatch
  obtain ⟨hr, hlen⟩ := Rule.longestMatch_mem hmatch
  obtain ⟨c, rest, hrest, hc⟩ : ∃ c rest, l.rest = '/' :: c :: rest ∧ (c = '/' ∨ c = '*') := by
    unfold opensComment at hopens
    split at hopens
    next c rest heq => exact ⟨c, rest, heq, by simpa using hopens⟩
    · cases hopens
  rw [hrest] at hmatch hlen
  refine (hrules r hr (Pattern.canBegin_of_length? hlen)).resolve_right fun hmark => ?_
  have hone : n = 1 := by
    rw [Rule.length?, hmark] at hlen
    exact (Option.some.inj hlen).symm
  obtain ⟨t, ht, k, hk, hlt⟩ : ∃ t ∈ Rule.inMode .ordinary, ∃ k,
      t.length? l.atLineStart ('/' :: c :: rest) = some k ∧ 1 < k := by
    rcases hc with rfl | rfl
    · refine ⟨⟨.lineComment, .nothing, .stay⟩, by decide, _, rfl, ?_⟩
      omega
    · obtain ⟨k, hk⟩ := Option.isSome_iff_exists.1 (hclosed rest hrest)
      refine ⟨⟨.blockComment, .nothing, .stay⟩, by decide, k + 4, ?_, by omega⟩
      exact Option.map_eq_some_iff.2 ⟨k, hk, rfl⟩
  have hle := Rule.length_le_of_longestMatch hmatch ht hk
  omega

/-- No dialect has a keyword for what is requested. -/
theorem wordKind_of_request (dialect : Dialect) :
    ∀ w ∈ ["__FILE__".toList, "__LINE__".toList], wordKind dialect w = .identifier := by
  cases dialect <;> decide

/-- A step of the ordinary mode is plain, if what it reads is. -/
theorem Coherent.plainStep (h : Coherent read l) (hmode : l.mode = .ordinary)
    (hs : l.step? = some s) (hnext : s.next.mode = .ordinary)
    (hsign : ∀ line ∈ (read ++ l.rest).physicalLines, (line.dropWhile isBlank).head? ≠ some '#')
    (hclosed : ∀ rest, l.rest = '/' :: '*' :: rest → (Pattern.lengthBefore? '*' '/' rest).isSome)
    (hrequest : ∀ t ∈ s.token?, t.kind = .identifier → NoRequest t.text)
    (hliteral : ∀ t ∈ s.token?, t.kind ∈ [.character, .string] → ∀ c ∈ t.text,
      isLineEnd c = false) :
    PlainStep NoRequest s := by
  have hopens := mem_comment_of_opensComment hmode hs hclosed
  rw [← Step.text_append_rest hs] at hopens
  obtain ⟨n, r, hmatch, rfl⟩ := step?_eq_some_iff.1 hs
  rw [hmode] at hmatch
  obtain ⟨hr, hlen⟩ := Rule.longestMatch_mem hmatch
  have htoken {kind : TokenKind} (hkind : r.meaning.kind? l.dialect (l.rest.take n) = some kind) :
      ⟨kind, l.rest.take n, l.line⟩ ∈ (l.read n r).token? := by
    show _ ∈ (r.meaning.kind? l.dialect (l.rest.take n)).map _
    rw [hkind]
    rfl
  refine ⟨hnext, fun hp => ?_, hopens, fun hp => ?_, fun hp => ?_⟩
  · replace hp : r.pattern ∈ [.pragma, .lineMarker] := hp
    simp only [List.mem_cons, List.not_mem_nil, or_false] at hp
    obtain ⟨hstart, hhead⟩ := Pattern.lineStart_of_length? hp hlen
    rw [h.lineStart] at hstart
    obtain ⟨line, hline, hsharp⟩ := Text.exists_line_of_lineStart hstart (by decide) hhead
    exact hsign line hline hsharp
  · have hrules : ∀ r ∈ Rule.inMode .ordinary, r.pattern ∈ [.quoted '\'', .quoted '"'] →
        r.meaning = .token .character ∨ r.meaning = .token .string := by decide
    have hkind : ∃ kind ∈ [TokenKind.character, .string],
        r.meaning.kind? l.dialect (l.rest.take n) = some kind := by
      rcases hrules r hr hp with hm | hm <;> rw [hm]
      · exact ⟨_, by decide, rfl⟩
      · exact ⟨_, by decide, rfl⟩
    obtain ⟨kind, hmem, hkind⟩ := hkind
    exact hliteral _ (htoken hkind) hmem
  · have hrules : ∀ r ∈ Rule.inMode .ordinary, r.pattern = .word → r.meaning = .word := by decide
    have hkind : r.meaning.kind? l.dialect (l.rest.take n) =
        some (wordKind l.dialect (l.rest.take n)) := by
      rw [hrules r hr hp]
      rfl
    intro hrequested
    exact hrequest _ (htoken hkind) (wordKind_of_request l.dialect _ hrequested) hrequested

/-- Every step of the lexer through a plain source is plain. -/
theorem plainStep_of_mem_steps (h : Coherent read l) (hmode : l.mode = .ordinary)
    (hordinary : ∀ s ∈ l.steps, s.next.mode = .ordinary)
    (hsign : ∀ line ∈ (read ++ l.rest).physicalLines, (line.dropWhile isBlank).head? ≠ some '#')
    (hclosed : ∀ s ∈ l.steps, ∀ rest, s.text ++ s.next.rest = '/' :: '*' :: rest →
      (Pattern.lengthBefore? '*' '/' rest).isSome)
    (hrequest : ∀ s ∈ l.steps, ∀ t ∈ s.token?, t.kind = .identifier → NoRequest t.text)
    (hliteral : ∀ s ∈ l.steps, ∀ t ∈ s.token?, t.kind ∈ [.character, .string] →
      ∀ c ∈ t.text, isLineEnd c = false) :
    ∀ s ∈ l.steps, PlainStep NoRequest s := by
  fun_induction steps l generalizing read with
  | case1 | case2 => exact fun _ hs => by cases hs
  | case3 l hrest s hs ih =>
    rw [List.forall_mem_cons] at hordinary hclosed hrequest hliteral ⊢
    rw [Step.text_append_rest hs] at hclosed
    refine ⟨h.plainStep hmode hs hordinary.1 hsign hclosed.1 hrequest.1 hliteral.1, ?_⟩
    refine ih (h.step hs) hordinary.1 hordinary.2 ?_ hclosed.2 hrequest.2 hliteral.2
    rwa [List.append_assoc, Step.text_append_rest hs]

end Lexer

/-- A plain source has a layout, and its tokens are those of the layout. -/
theorem PlainSource.exists_laid {dialect : Dialect} {cs : Text} {ts : List Token}
    (h : PlainSource dialect cs) (hts : Token.ofText dialect cs = .ok ts) :
    ∃ ps, Laid dialect Lexer.NoRequest cs ps ∧ ts = tokensFrom 1 ps := by
  obtain ⟨rfl, hok⟩ := Lexer.tokenize_of_ofText_ok hts
  have htokens := (Lexer.tokenize_eq_steps (Lexer.ofText dialect cs)).1
  have hmem {s : Step} (hs : s ∈ (Lexer.ofText dialect cs).steps) {t : Token} (ht : t ∈ s.token?) :
      t ∈ (Lexer.ofText dialect cs).tokenize.1 := by
    rw [htokens]
    exact List.mem_filterMap.2 ⟨s, hs, ht⟩
  have hplain := Lexer.plainStep_of_mem_steps (Lexer.coherent_ofText dialect cs) rfl h.ordinary
    h.not_sign h.comment_closed (fun s hs t ht => h.not_request t (hmem hs ht))
    (fun s hs t ht => h.literal_closed t (hmem hs ht))
  exact Lexer.exists_laid rfl hok hplain

/-! ## Checking a source -/

/-- Whether a step leaves its source plain. -/
def Step.isPlain (s : Step) : Bool :=
  decide (s.next.mode = .ordinary) &&
    s.token?.all (fun t => t.text ∉ ["__FILE__".toList, "__LINE__".toList] &&
      (t.kind ∉ [.character, .string] || t.text.all (!isLineEnd ·))) &&
    match s.text ++ s.next.rest with
    | '/' :: '*' :: rest => (Pattern.lengthBefore? '*' '/' rest).isSome
    | _ => true

theorem Step.of_isPlain {s : Step} (h : s.isPlain) :
    s.next.mode = .ordinary ∧
      (∀ t ∈ s.token?, t.text ∉ ["__FILE__".toList, "__LINE__".toList] ∧
        (t.kind ∈ [.character, .string] → ∀ c ∈ t.text, isLineEnd c = false)) ∧
      ∀ rest, s.text ++ s.next.rest = '/' :: '*' :: rest →
        (Pattern.lengthBefore? '*' '/' rest).isSome := by
  rw [Step.isPlain, Bool.and_eq_true, Bool.and_eq_true, decide_eq_true_eq] at h
  obtain ⟨⟨hmode, htoken⟩, hcomment⟩ := h
  refine ⟨hmode, fun t ht => ?_, fun rest hrest => ?_⟩
  · rw [Option.mem_def.1 ht, Option.all_some, Bool.and_eq_true, decide_eq_true_eq] at htoken
    refine ⟨htoken.1, fun hkind c hc => ?_⟩
    have hinline := htoken.2
    rw [Bool.or_eq_true, decide_eq_true_eq, or_iff_right (not_not_intro hkind),
      List.all_eq_true] at hinline
    rw [← Bool.not_eq_true']
    exact hinline c hc
  · rw [hrest] at hcomment
    exact hcomment

/-- Whether a source without question marks is found to be plain in `n` steps. -/
def checkPlain (n : Nat) (dialect : Dialect) (cs : Text) : Bool :=
  ((Lexer.ofText dialect cs).stepsWithin n).any (·.all Step.isPlain) &&
    cs.physicalLines.all (fun line => (line.dropWhile isBlank).head? != some '#' &&
      !Source.isContinued (Text.trimEnd isWhiteSpace line)) &&
    '?' ∉ cs && decide (cs.length < unsignedLimit)

theorem PlainSource.of_checkPlain {n : Nat} {dialect : Dialect} {cs : Text}
    (h : checkPlain n dialect cs) :
    PlainSource dialect cs ∧ ∃ ts, Token.ofText dialect cs = .ok ts := by
  simp only [checkPlain, Bool.and_eq_true, decide_eq_true_eq, List.all_eq_true] at h
  obtain ⟨⟨⟨hrun, hlines⟩, hquestion⟩, hsize⟩ := h
  obtain ⟨ss, hss, hall⟩ := (Option.any_eq_true _ _).1 hrun
  obtain ⟨hsteps, -⟩ := Lexer.steps_of_stepsWithin hss
  have htokens := (Lexer.tokenize_eq_steps (Lexer.ofText dialect cs)).1
  rw [hsteps] at htokens
  have hstep (s : Step) (hs : s ∈ ss) := Step.of_isPlain (List.all_eq_true.1 hall s hs)
  have htoken : ∀ t ∈ (Lexer.ofText dialect cs).tokenize.1,
      t.text ∉ ["__FILE__".toList, "__LINE__".toList] ∧
        (t.kind ∈ [.character, .string] → ∀ c ∈ t.text, isLineEnd c = false) := by
    intro t ht
    rw [htokens] at ht
    obtain ⟨s, hs, hst⟩ := List.mem_filterMap.1 ht
    exact (hstep s hs).2.1 t hst
  refine ⟨?_, _, Lexer.ofText_of_stepsWithin hss⟩
  constructor
  case ordinary =>
    rw [hsteps]
    exact fun s hs => (hstep s hs).1
  case not_sign => exact fun line hline => by simpa using (hlines line hline).1
  case not_trigraph => exact fun c _ hfound => hquestion (hfound.subset List.mem_cons_self)
  case not_continued => exact fun line hline => by simpa using (hlines line hline).2
  case not_request => exact fun t ht _ => (htoken t ht).1
  case comment_closed =>
    rw [hsteps]
    exact fun s hs => (hstep s hs).2.2
  case literal_closed => exact fun t ht => (htoken t ht).2
  case size => exact hsize

end IdlFrontend
