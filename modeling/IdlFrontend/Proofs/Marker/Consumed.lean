import IdlFrontend.Proofs.Lexer.Marker
import IdlFrontend.Proofs.Session.Output
import IdlFrontend.Proofs.Session.PlainText

/-!
# What the lexer makes of markers

A marker tells the lexer the number of the next line, provided that the lexer reads
it as a marker. The lexer does, unless it is in the middle of a stretch that goes on
behind the line break before the marker: a quoted literal, a native type, a code
fragment or a block comment. Preprocessing does not keep markers out of these.

Results:

* `Coherent.mem_swallowing`: the stretches that a marker can get lost in.
* `always_readsMarker_iff`: every marker is read as one, or is lost in one of these.
* `always_readsMarker_iff_lost`: a comment over two lines in a native type is enough
  for the second.
-/

namespace IdlFrontend

namespace Lexer

/-- The number of characters that steps have read. -/
def readLength (ss : List Step) : Nat := (ss.flatMap Step.text).length

/-- The step that begins behind `start` characters reads the marker, and the lexer is
    on the line of the marker then. -/
def ReadsMarker (ss : List Step) (start line : Nat) (file : Text) : Prop :=
  ∃ before s after, ss = before ++ s :: after ∧ readLength before = start ∧
    s.text = marker line file ∧ s.rule = ⟨.lineMarker, .lineMarker, .stay⟩ ∧
      s.next.line.toNat = line

/-- The patterns whose matches a marker can get lost in. -/
def swallowing : List Pattern :=
  [.quoted '\'', .quoted '"', .nativeType, .fragmentBody, .blockComment]

/-- A step by one of these patterns begins before and ends behind the place behind
    `start` characters. -/
def Swallows (ss : List Step) (start : Nat) : Prop :=
  ∃ before s after, ss = before ++ s :: after ∧ readLength before < start ∧
    start < readLength before + s.text.length ∧ s.rule.pattern ∈ swallowing

@[simp] theorem readLength_nil : readLength [] = 0 := rfl

@[simp] theorem readLength_cons (s : Step) (ss : List Step) :
    readLength (s :: ss) = s.text.length + readLength ss := by
  simp [readLength]

@[simp] theorem readLength_append (ss ts : List Step) :
    readLength (ss ++ ts) = readLength ss + readLength ts := by
  simp [readLength]

/-- Some step reads the character behind `start` others. -/
theorem exists_step_at {ss : List Step} {start : Nat} (h : start < readLength ss) :
    ∃ before s after, ss = before ++ s :: after ∧ readLength before ≤ start ∧
      start < readLength before + s.text.length := by
  induction ss generalizing start with
  | nil => simp at h
  | cons s ss ih =>
    rw [readLength_cons] at h
    by_cases hs : start < s.text.length
    · exact ⟨[], s, ss, rfl, Nat.zero_le _, by simpa using hs⟩
    · have hrest : start - s.text.length < readLength ss := by omega
      obtain ⟨before, t, after, rfl, hle, hlt⟩ := ih hrest
      refine ⟨s :: before, t, after, rfl, ?_, ?_⟩
      · rw [readLength_cons]
        omega
      · rw [readLength_cons]
        omega

/-- A step cannot begin in the middle of another one. -/
theorem not_swallows_of_readsMarker {ss : List Step} {start line : Nat} {file : Text}
    (h : ReadsMarker ss start line file) : ¬Swallows ss start := by
  rintro ⟨before, s, after, hss, hlt, hgt, -⟩
  obtain ⟨before', s', after', hss', hstart, -⟩ := h
  rw [hss] at hss'
  rcases List.append_eq_append_iff.1 hss' with ⟨mid, rfl, hmid⟩ | ⟨mid, rfl, hmid⟩
  · cases mid with
    | nil =>
      simp only [readLength_append, readLength_nil] at hstart
      omega
    | cons t mid =>
      obtain ⟨rfl, -⟩ := List.cons.inj hmid
      simp only [readLength_append, readLength_cons] at hstart
      omega
  · simp only [readLength_append] at hlt
    omega

theorem swallows_cons_iff {s : Step} {ss : List Step} {start : Nat} :
    Swallows (s :: ss) start ↔
      (0 < start ∧ start < s.text.length ∧ s.rule.pattern ∈ swallowing) ∨
        Swallows ss (start - s.text.length) := by
  constructor
  · rintro ⟨before, t, after, heq, hlt, hgt, hmem⟩
    cases before with
    | nil =>
      obtain ⟨rfl, rfl⟩ := List.cons.inj heq
      rw [readLength_nil] at hlt hgt
      exact Or.inl ⟨hlt, by omega, hmem⟩
    | cons u before =>
      obtain ⟨rfl, rfl⟩ := List.cons.inj heq
      rw [readLength_cons] at hlt hgt
      exact Or.inr ⟨before, t, after, rfl, by omega, by omega, hmem⟩
  · rintro (⟨hlt, hgt, hmem⟩ | ⟨before, t, after, rfl, hlt, hgt, hmem⟩)
    · exact ⟨[], s, ss, rfl, hlt, by rw [readLength_nil]; omega, hmem⟩
    · refine ⟨s :: before, t, after, rfl, ?_, ?_, hmem⟩
      · rw [readLength_cons]
        omega
      · rw [readLength_cons]
        omega

instance decidableSwallows : (ss : List Step) → (start : Nat) → Decidable (Swallows ss start)
  | [], _ => isFalse fun ⟨before, _, _, h, _⟩ =>
    List.append_ne_nil_of_right_ne_nil before (List.cons_ne_nil _ _) h.symm
  | _ :: ss, _ =>
    have := decidableSwallows ss
    decidable_of_iff' _ swallows_cons_iff

variable {read : Text} {l : Lexer}

/-- Only the stretches that a marker can get lost in have a line feed before their
    last character. -/
theorem Coherent.mem_swallowing (h : Coherent read l) {s : Step} (hs : l.step? = some s)
    {xs ys : Text} (htext : s.text = xs ++ '\n' :: ys) (hys : ys ≠ []) :
    s.rule.pattern ∈ swallowing := by
  obtain ⟨n, r, hmatch, rfl⟩ := step?_eq_some_iff.1 hs
  obtain ⟨hr, hlen⟩ := Rule.longestMatch_mem hmatch
  have hmode : l.mode ∈ [.ordinary, .native, .nativeType, .fragment, .fragmentEnd] := by
    rcases h.modes with ⟨hm, -⟩ | ⟨hm, -⟩
    · rw [hm]
      decide
    · exact List.mem_cons_of_mem _ hm
  have hrules : ∀ mode ∈ [Mode.ordinary, .native, .nativeType, .fragment, .fragmentEnd],
      ∀ r ∈ Rule.inMode mode, r.pattern.spansLines → r.pattern ∈ swallowing := by decide
  refine hrules l.mode hmode r hr ?_
  cases hspans : r.pattern.spansLines with
  | true => rfl
  | false => exact absurd (Pattern.eq_nil_of_take_eq hspans hlen htext) hys

end Lexer

open Lexer

/-- The text behind a place that lies inside a step, if a line feed stands before it. -/
theorem exists_line_feed {read rest head tail : Text} (h : read ++ rest = head ++ tail)
    (hhead : EndsLine head) (htail : tail ≠ []) (hlt : read.length < head.length) {n : Nat}
    (hn : head.length < read.length + n) :
    ∃ xs ys, rest.take n = xs ++ '\n' :: ys ∧ ys ≠ [] := by
  have hne : head ≠ [] := List.ne_nil_of_length_pos (by omega)
  obtain ⟨front, rfl⟩ : ∃ front, head = front ++ ['\n'] :=
    List.getLast?_eq_some_iff.1 (hhead.resolve_left hne)
  rw [List.length_append, List.length_singleton] at hlt hn
  have hrest : rest = front.drop read.length ++ '\n' :: tail := by
    have hdrop := congrArg (List.drop read.length) h
    rw [List.drop_left, List.append_assoc, List.drop_append_of_le_length (by omega)] at hdrop
    exact hdrop
  refine ⟨front.drop read.length, tail.take (n - (front.length - read.length) - 1), ?_, ?_⟩
  · rw [hrest, List.take_append, List.length_drop, List.take_of_length_le (by simp; omega),
      List.take_cons (by omega)]
  · obtain ⟨c, cs, rfl⟩ := List.exists_cons_of_ne_nil htail
    rw [List.take_cons (by omega)]
    exact List.cons_ne_nil _ _

/-- In a run over well-marked output, a marker is read by a step of its own unless a
    longer stretch goes over the place where it begins. -/
theorem MarkedText.WellMarked.readsMarker_iff {out : MarkedText} (h : out.WellMarked)
    {dialect : Dialect} {ts : List Token} (hok : Token.ofText dialect out.text = .ok ts)
    {before after : List Piece} {line : Nat} {file : Text}
    (hpieces : out.pieces = before ++ .marker line file :: after) :
    ReadsMarker (ofText dialect out.text).steps (before.flatMap Piece.text).length line file ↔
      ¬Swallows (ofText dialect out.text).steps (before.flatMap Piece.text).length := by
  refine ⟨not_swallows_of_readsMarker, fun hnot => ?_⟩
  obtain ⟨hend, hline⟩ := h.fits hpieces
  have htext : out.text =
      before.flatMap Piece.text ++ (marker line file ++ after.flatMap Piece.text) := by
    rw [MarkedText.text, hpieces, List.flatMap_append, List.flatMap_cons]
    rfl
  have hmarker : marker line file ++ after.flatMap Piece.text ≠ [] := by
    rw [marker_eq_append, markerLine]
    exact List.cons_ne_nil _ _
  have hsteps := (tokenize_eq_steps (ofText dialect out.text)).2 (tokenize_of_ofText_ok hok).2
  have hlength : (before.flatMap Piece.text).length <
      readLength (ofText dialect out.text).steps := by
    rw [readLength, hsteps]
    show _ < out.text.length
    rw [htext, List.length_append]
    have := List.length_pos_of_ne_nil hmarker
    omega
  obtain ⟨first, s, last, hss, hle, hlt⟩ := exists_step_at hlength
  obtain ⟨l, hcoherent, hs, -, hread⟩ :=
    exists_of_steps_eq (I := Coherent) (fun h => h.step) (coherent_ofText dialect out.text) hss
  rw [List.nil_append] at hcoherent
  have hsplit : first.flatMap Step.text ++ l.rest =
      before.flatMap Piece.text ++ (marker line file ++ after.flatMap Piece.text) :=
    hread.trans htext
  rcases Nat.eq_or_lt_of_le hle with heq | hinside
  · obtain ⟨hfirst, hrest⟩ := List.append_inj hsplit heq
    have hstart : l.atLineStart := by
      rw [hcoherent.lineStart, hfirst]
      rcases hend with hnil | hfeed
      · rw [hnil]
        rfl
      · rw [hfeed]
        rfl
    obtain ⟨hstext, hrule, hnext⟩ := hcoherent.step_marker hstart hrest hs
    exact ⟨first, s, last, hss, heq, hstext, hrule, hnext hline⟩
  · obtain ⟨n, r, hmatch, rfl⟩ := step?_eq_some_iff.1 hs
    have hn : (l.rest.take n).length ≤ n := List.length_take_le _ _
    obtain ⟨xs, ys, hxs, hys⟩ := exists_line_feed hsplit hend hmarker hinside
      (n := n) (Nat.lt_of_lt_of_le hlt (Nat.add_le_add_left hn _))
    exact absurd ⟨first, _, last, hss, hinside, hlt, hcoherent.mem_swallowing hs hxs hys⟩ hnot

/-- **Every marker is read as a marker, or lost in a stretch that goes on behind a line
    break.** For all sources, wherever included files come from, and all definitions:
    if the output of preprocessing is cut into tokens without failure, then the tokens
    are those of the steps of the lexer, and for every marker in the output, the lexer
    reads the whole marker by its rule for markers, and is on the line that the marker
    names then, exactly if no quoted literal, native type, code fragment or block
    comment that the lexer reads begins before the marker and ends behind its
    beginning. -/
theorem always_readsMarker_iff {m : Type → Type} [Monad m] [LawfulMonad m] (store : SourceStore m)
    (defines : List Predefinition) (file : SourceFile) :
    Always (fun r => ∀ out, r = .ok out → ∀ (dialect : Dialect) (ts : List Token),
      Token.ofText dialect out.text = .ok ts →
      let ss := (ofText dialect out.text).steps
      ts = ss.filterMap Step.token? ∧
      ∀ (before after : List Piece) (line : Nat) (name : Text),
        out.pieces = before ++ .marker line name :: after →
        (ReadsMarker ss (before.flatMap Piece.text).length line name ↔
          ¬Swallows ss (before.flatMap Piece.text).length))
      (preprocessMarked store defines file) := by
  have hmarked := Session.always_wellMarked_preprocessMarked store defines file
  rw [← bind_pure (preprocessMarked store defines file)]
  refine hmarked.bind fun r hr => always_pure ?_
  intro out hout dialect ts hok ss
  refine ⟨?_, fun before after line name hpieces => (hr out hout).readsMarker_iff hok hpieces⟩
  rw [← (tokenize_of_ofText_ok hok).1]
  exact (tokenize_eq_steps _).1

/-- A comment over two lines in a native type is written as a marker, and the marker
    becomes part of the type. -/
theorem always_readsMarker_iff_lost :
    ∃ (out : MarkedText) (ts : List Token) (before after : List Piece),
      preprocessMarked (m := Id) (SourceStore.ofList []) []
        ⟨['f'], "native H(/*\n*/);".toList⟩ = .ok out ∧
      Token.ofText .omg out.text = .ok ts ∧ out.pieces = before ++ .marker 2 ['f'] :: after ∧
      ⟨.nativeType, '\n' :: marker 2 ['f'], 1⟩ ∈ ts ∧
      ¬ReadsMarker (ofText .omg out.text).steps (before.flatMap Piece.text).length 2 ['f'] := by
  have hscan : Lexeme.scan (Source.joinContinuations (Source.replaceTrigraphs
      "native H(/*\n*/);".toList)) =
        [⟨.word, ['n', 'a', 't', 'i', 'v', 'e'], 1⟩, ⟨.space, [' '], 1⟩, ⟨.word, ['H'], 1⟩,
          ⟨.punctuation, ['('], 1⟩, ⟨.comment, ['/', '*', '\n', '*', '/'], 1⟩,
          ⟨.punctuation, [')'], 2⟩, ⟨.punctuation, [';'], 2⟩] := by decide +kernel
  have hout := preprocessMarked_of_no_macros (m := Id) (SourceStore.ofList [])
    ⟨['f'], "native H(/*\n*/);".toList⟩
    (by rw [Session.sourceLines, hscan]; decide) (by dsimp only; rw [hscan]; simp)
  dsimp only at hout
  rw [hscan] at hout
  generalize hmarked : ({} : MarkedText).push ['f'] _ = out at hout
  have hpieces : out.pieces =
      [.marker 1 ['f'], .lexeme ⟨.word, ['n', 'a', 't', 'i', 'v', 'e'], 1⟩, .space,
        .lexeme ⟨.word, ['H'], 1⟩, .lexeme ⟨.punctuation, ['('], 1⟩, .lineFeed] ++
      .marker 2 ['f'] :: [.lexeme ⟨.punctuation, [')'], 2⟩, .lexeme ⟨.punctuation, [';'], 2⟩] := by
    rw [← hmarked]
    decide +kernel
  have htext : out.text = ['#', ' ', '1', ' ', '"', 'f', '"', '\n', 'n', 'a', 't', 'i', 'v', 'e',
      ' ', 'H', '(', '\n', '#', ' ', '2', ' ', '"', 'f', '"', '\n', ')', ';'] := by
    rw [← hmarked]
    decide +kernel
  -- Eight steps read the whole output; the sixth of them goes over the second marker.
  have hrun : ((ofText .omg out.text).stepsWithin 8).any fun ss =>
      decide (Swallows ss 18) &&
        decide (⟨.nativeType, '\n' :: marker 2 ['f'], 1⟩ ∈ ss.filterMap Step.token?) := by
    rw [htext]
    decide +kernel
  obtain ⟨ss, hss, hlost⟩ := (Option.any_eq_true _ _).1 hrun
  obtain ⟨hswallows, hmem⟩ : Swallows ss 18 ∧ _ := by
    rwa [Bool.and_eq_true, decide_eq_true_eq, decide_eq_true_eq] at hlost
  have hok := ofText_of_stepsWithin hss
  have hiff := always_id_iff.1 (always_readsMarker_iff (m := Id) (SourceStore.ofList []) []
    ⟨['f'], "native H(/*\n*/);".toList⟩) out hout .omg _ hok
  refine ⟨out, _, _, _, hout, hok, hpieces, hmem, fun hreads => ?_⟩
  refine (hiff.2 _ _ _ _ hpieces).1 hreads ?_
  rw [(steps_of_stepsWithin hss).1]
  exact hswallows

end IdlFrontend
