import IdlFrontend.Proofs.Layout.Lexemes
import IdlFrontend.Proofs.Layout.Steps
import IdlFrontend.Proofs.Lexer.Marker
import IdlFrontend.Proofs.MarkedText.Separation

/-!
# Reading what was written for a layout

The parts of the output are read one after the other: a marker sets the line, a line
feed counts one line on, a space keeps two tokens apart, and tokens without space
between them are read as in the source.

Results:

* `Before.marker`, `Before.space`, `Before.lineFeed`, `Before.tokens`: how each part is
  read.
* `Scanned.tokenize_writeAll`: the tokens of the output are those of the layout.
-/

namespace IdlFrontend

namespace Lexer

variable {dialect : Dialect} {rest : Text} {line : UInt64} {start : Bool} {l l' : Lexer}

/-- A lexer of the ordinary mode in front of `rest`. -/
structure Before (dialect : Dialect) (rest : Text) (line : UInt64) (start : Bool) (l : Lexer) :
    Prop where
  dialect_eq : l.dialect = dialect
  rest_eq : l.rest = rest
  line_eq : l.line = line
  atLineStart_eq : l.atLineStart = start
  mode_eq : l.mode = .ordinary
  below_eq : l.below = []

/-- From `l`, the tokens `ts` are read, and then what is read from `l'`. -/
structure Reads (l : Lexer) (ts : List Token) (l' : Lexer) : Prop where
  tokens : l.tokenize.1 = ts ++ l'.tokenize.1
  failure : l.tokenize.2.1 = l'.tokenize.2.1

theorem Reads.refl (l : Lexer) : Reads l [] l := ⟨rfl, rfl⟩

theorem Reads.trans {l'' : Lexer} {ts us : List Token} (h : Reads l ts l') (h' : Reads l' us l'') :
    Reads l (ts ++ us) l'' :=
  ⟨by rw [h.tokens, h'.tokens, List.append_assoc], h.failure.trans h'.failure⟩

theorem Reads.of_step {s : Step} (hrest : l.rest ≠ []) (h : l.step? = some s) :
    Reads l s.token?.toList s.next := by
  have htokenize := tokenize_of_step hrest h
  exact ⟨by rw [htokenize], by rw [htokenize]⟩

/-! ## Steps -/

/-- A rule is used if it is the only one that matches. -/
theorem step?_of_unique {n : Nat} {r : Rule} (hr : r ∈ Rule.inMode l.mode)
    (hlen : r.length? l.atLineStart l.rest = some n)
    (hunique : ∀ s ∈ Rule.inMode l.mode, ∀ k, s.length? l.atLineStart l.rest = some k → s = r) :
    l.step? = some (l.read n r) := by
  cases hmatch : Rule.longestMatch l.atLineStart l.rest (Rule.inMode l.mode) with
  | none =>
    rw [Rule.longestMatch_eq_none_iff.1 hmatch r hr] at hlen
    cases hlen
  | some best =>
    obtain ⟨k, s⟩ := best
    obtain ⟨hs, hk⟩ := Rule.longestMatch_mem hmatch
    obtain rfl := hunique s hs k hk
    obtain rfl : k = n := Option.some.inj (hk.symm.trans hlen)
    exact step?_eq_some_iff.2 ⟨k, s, hmatch, rfl⟩

/-- A line feed is a stretch of its own. -/
theorem step?_lineFeed (hmode : l.mode = .ordinary) (hrest : l.rest = '\n' :: rest) :
    l.step? = some (l.read 1 ⟨.lineBreak, .nothing, .stay⟩) := by
  have hrules : ∀ r ∈ Rule.inMode .ordinary, r.pattern.canBegin '\n' →
      r = ⟨.lineBreak, .nothing, .stay⟩ := by decide
  refine step?_of_unique (by rw [hmode]; decide) (by rw [hrest]; rfl) ?_
  rw [hmode, hrest]
  exact fun s hs k hk => hrules s hs (Pattern.canBegin_of_length? hk)

/-- A step that is no marker moves behind its stretch. -/
theorem Before.read {text : Text} (h : Before dialect (text ++ rest) line start l) (hne : text ≠ [])
    {r : Rule} (hstep : l.step? = some (l.read text.length r)) (hstay : r.change = .stay)
    (hm : r.meaning ∉ [.pragma, .lineMarker])
    (hnative : r.meaning.kind? dialect text ≠ some (.keyword .native)) :
    ∃ l', Reads l ((r.meaning.kind? dialect text).map (Token.mk · text line)).toList l' ∧
      Before dialect rest (line + .ofNat (Text.lineBreaks text))
        ((text.getLast?.map isLineEnd).getD start) l' := by
  have htake : l.rest.take text.length = text := by rw [h.rest_eq, List.take_left]
  have hread := Reads.of_step (by simp [h.rest_eq, hne]) hstep
  have hnext : (l.read text.length r).next = l.skip text.length := by
    refine next_read_of_stay hstay hm ?_
    rwa [htake, h.dialect_eq]
  have htoken : (l.read text.length r).token? =
      (r.meaning.kind? dialect text).map (Token.mk · text line) := by
    show (r.meaning.kind? l.dialect (l.rest.take text.length)).map
      (Token.mk · (l.rest.take text.length) l.line) = _
    rw [htake, h.dialect_eq, h.line_eq]
  rw [hnext, htoken] at hread
  refine ⟨l.skip text.length, hread, h.dialect_eq, ?_, ?_, ?_, h.mode_eq, h.below_eq⟩
  · show l.rest.drop text.length = rest
    rw [h.rest_eq, List.drop_left]
  · show l.line + .ofNat (Text.lineBreaks (l.rest.take text.length)) = _
    rw [htake, h.line_eq]
  · show ((l.rest.take text.length).getLast?.map isLineEnd).getD l.atLineStart = _
    rw [htake, h.atLineStart_eq]

theorem Before.lineFeed (h : Before dialect ('\n' :: rest) line start l) :
    ∃ l', Reads l [] l' ∧ Before dialect rest (line + 1) true l' := by
  have hstep := step?_lineFeed h.mode_eq h.rest_eq
  have hfeed : Before dialect (['\n'] ++ rest) line start l := h
  exact hfeed.read (List.cons_ne_nil _ _) hstep rfl (by decide) (by simp [Meaning.kind?])

theorem Before.space (h : Before dialect (' ' :: rest) line false l)
    (hrest : ∀ c ∈ rest.head?, isBlank c = false) :
    ∃ l', Reads l [] l' ∧ Before dialect rest line false l' := by
  have hrules : ∀ r ∈ Rule.inMode .ordinary, r.pattern.canBegin ' ' →
      r.pattern = .pragma ∨ r.pattern = .lineMarker ∨ r = ⟨.blanks, .nothing, .stay⟩ := by decide
  have hrun : Pattern.runLength isBlank (' ' :: rest) = 1 := by
    have hnil := Pattern.takeWhile_append hrest []
    rw [List.nil_append, List.takeWhile_nil] at hnil
    rw [Pattern.runLength, List.takeWhile_cons_of_pos (by decide), hnil]
    rfl
  have hstep : l.step? = some (l.read 1 ⟨.blanks, .nothing, .stay⟩) := by
    refine step?_of_unique (by rw [h.mode_eq]; decide) ?_ ?_
    · rw [h.rest_eq, Rule.length?, Pattern.length?, hrun]
      rfl
    · rw [h.mode_eq, h.rest_eq, h.atLineStart_eq]
      intro s hs k hk
      have hstart (hp : s.pattern = .pragma ∨ s.pattern = .lineMarker) :
          s = ⟨.blanks, .nothing, .stay⟩ :=
        absurd (Pattern.lineStart_of_length? hp hk).1 Bool.false_ne_true
      rcases hrules s hs (Pattern.canBegin_of_length? hk) with hp | hp | hp
      · exact hstart (Or.inl hp)
      · exact hstart (Or.inr hp)
      · exact hp
  have hspace : Before dialect ([' '] ++ rest) line false l := h
  have hread := hspace.read (List.cons_ne_nil _ _) hstep rfl (by decide) (by simp [Meaning.kind?])
  rwa [show line + .ofNat (Text.lineBreaks [' ']) = line from UInt64.add_zero line] at hread

theorem Before.marker {number : Nat} (hnumber : number < unsignedLimit) {file : Text}
    (h : Before dialect (IdlFrontend.marker number file ++ rest) line true l) :
    ∃ l', Reads l [] l' ∧ Before dialect rest (.ofNat number) true l' := by
  have hmarker : l.rest.take (IdlFrontend.marker number file).length =
      IdlFrontend.marker number file := by
    rw [h.rest_eq, List.take_left]
  have hcoherent := coherent_nil h.atLineStart_eq h.mode_eq h.below_eq
  have hstep : l.step? = some (l.read (IdlFrontend.marker number file).length
      ⟨.lineMarker, .lineMarker, .stay⟩) := by
    refine step?_of_unique (by rw [h.mode_eq]; decide) ?_ ?_
    · rw [h.atLineStart_eq, h.rest_eq]
      exact lineMarkerLength?_marker number file rest
    · exact fun s hs k hk => hcoherent.rule_of_marker h.atLineStart_eq h.rest_eq hs hk
  have hne : IdlFrontend.marker number file ≠ [] := by
    rw [marker_eq_append]
    exact List.append_ne_nil_of_right_ne_nil _ (List.cons_ne_nil _ _)
  have hlast : (IdlFrontend.marker number file).getLast? = some '\n' := by
    rw [marker_eq_append]
    exact List.getLast?_concat
  have hnext : (l.read (IdlFrontend.marker number file).length ⟨.lineMarker, .lineMarker,
      .stay⟩).next =
      { l.skip (IdlFrontend.marker number file).length with line := .ofNat number } := by
    show (l.skip _).note (l.rest.take _) .lineMarker = _
    rw [hmarker, note, markedLine?_marker hnumber]
  have hread := Reads.of_step (by simp [h.rest_eq, hne]) hstep
  rw [hnext] at hread
  refine ⟨_, hread, h.dialect_eq, ?_, rfl, ?_, h.mode_eq, h.below_eq⟩
  · show l.rest.drop _ = rest
    rw [h.rest_eq, List.drop_left]
  · show ((l.rest.take _).getLast?.map isLineEnd).getD l.atLineStart = true
    rw [hmarker, hlast]
    rfl

/-- A token is read as it is alone. -/
theorem Before.token {t : Unplaced} {w x : Text}
    (h : Before dialect (t.text ++ (w ++ x)) line start l) (ht : ReadsAlone dialect t w)
    (hx : Ends x) (hw : Rule.Readable x (t.text ++ w)) :
    ∃ l', Reads l [t.at line] l' ∧ Before dialect (w ++ x) line false l' := by
  obtain ⟨r, hmatch, hkind, hstay⟩ := ht.exists_rule
  have hstep : l.step? = some (l.read t.text.length r) := by
    refine step?_eq_some_iff.2 ⟨_, r, ?_, rfl⟩
    rw [h.mode_eq, h.rest_eq, ← List.append_assoc, Rule.longestMatch_append hx hw, hmatch]
  have hm : r.meaning ∉ [.pragma, .lineMarker] := by
    intro hmem
    simp only [List.mem_cons, List.not_mem_nil, or_false] at hmem
    rcases hmem with hmem | hmem <;> rw [hmem] at hkind <;> cases hkind
  have hnative : r.meaning.kind? dialect t.text ≠ some (.keyword .native) := by
    rw [hkind]
    exact fun heq => ht.ne_native (Option.some.inj heq)
  obtain ⟨l', hreads, hnext⟩ := h.read ht.ne_nil hstep hstay hm hnative
  have hlast : (t.text.getLast?.map isLineEnd).getD start = false := by
    cases hlast : t.text.getLast? with
    | none => exact absurd (List.getLast?_eq_none_iff.1 hlast) ht.ne_nil
    | some c => exact ht.inline c (List.mem_of_getLast? hlast)
  rw [lineBreaks_eq_zero ht.inline, hlast, show line + .ofNat 0 = line from UInt64.add_zero
    line] at hnext
  rw [hkind] at hreads
  exact ⟨l', hreads, hnext⟩

/-- Tokens without space between them are read in front of anything that ends them and
    is no worse than what they stand in front of. -/
theorem Before.tokens {ts : List Unplaced} {x y : Text} (hts : Glued dialect x ts) (hne : ts ≠ [])
    (hy : Ends y) (hxy : Milder x y) (h : Before dialect (glue ts ++ y) line start l) :
    ∃ l', Reads l (ts.map (·.at line)) l' ∧ Before dialect y line false l' := by
  induction hts generalizing start l with
  | nil => exact absurd rfl hne
  | @cons t ts halone hreadable hts ih =>
    rw [glue_cons, List.append_assoc] at h
    obtain ⟨l', hreads, hnext⟩ := h.token halone hy (hxy.readable hreadable)
    by_cases hnil : ts = []
    · subst hnil
      exact ⟨l', hreads, hnext⟩
    · obtain ⟨l'', hreads', hnext'⟩ := ih hnil hnext
      exact ⟨l'', hreads.trans hreads', hnext'⟩

/-- What is written in front of a lexeme is read without a token, and then the line is
    that of the lexeme. -/
theorem Before.lead {c : Cursor} {file : Text} {number : Nat} (hnumber : number < unsignedLimit)
    (hc : c.file = some file → .ofNat c.line = line) (hrest : ∀ d ∈ rest.head?, isBlank d = false)
    (h : Before dialect ((c.lead file number).flatMap Piece.text ++ rest) line c.atLineStart l) :
    ∃ l' start, Reads l [] l' ∧ Before dialect rest (.ofNat number) start l' := by
  rw [Cursor.lead] at h
  by_cases hsync : c.file = some file ∧ c.line = number
  · rw [if_pos hsync] at h
    obtain rfl : line = .ofNat number := by rw [← hc hsync.1, hsync.2]
    by_cases hspace : c.pendingSpace && !c.atLineStart
    · rw [if_pos hspace] at h
      rw [Bool.and_eq_true, Bool.not_eq_true'] at hspace
      rw [hspace.2] at h
      obtain ⟨l', hreads, hnext⟩ := Before.space h hrest
      exact ⟨l', false, hreads, hnext⟩
    · rw [if_neg hspace] at h
      exact ⟨l, c.atLineStart, Reads.refl l, h⟩
  · rw [if_neg hsync, List.flatMap_append, List.append_assoc] at h
    have hmarker : [Piece.marker number file].flatMap Piece.text = IdlFrontend.marker number file :=
      List.append_nil _
    rw [hmarker] at h
    cases hstart : c.atLineStart with
    | true =>
      rw [hstart] at h
      obtain ⟨l', hreads, hnext⟩ := Before.marker hnumber h
      exact ⟨l', true, hreads, hnext⟩
    | false =>
      rw [hstart] at h
      obtain ⟨l', hreads, hnext⟩ := Before.lineFeed h
      obtain ⟨l'', hreads', hnext'⟩ := Before.marker hnumber hnext
      exact ⟨l'', true, hreads.trans hreads', hnext'⟩

end Lexer

/-! ## The output of a layout -/

variable {dialect : Dialect} {P : Text → Prop} {line : Nat} {ps : List Part} {us : List Lexeme}

theorem Cursor.writeAll_solid (c : Cursor) (file : Text) (hne : us ≠ [])
    (hus : ∀ u ∈ us, Lexeme.Solid P line u) :
    (c.writeAll file us).1.flatMap Piece.text =
      (c.lead file line).flatMap Piece.text ++ us.flatMap Lexeme.text ∧
      (c.writeAll file us).2 = ⟨some file, line, false, false⟩ := by
  induction us generalizing c with
  | nil => exact absurd rfl hne
  | cons u us ih =>
    rw [List.forall_mem_cons] at hus
    rw [writeAll_cons, write_of_not_isBlank c file hus.1.not_isBlank, hus.1.line_eq]
    by_cases hnil : us = []
    · subst hnil
      refine ⟨?_, rfl⟩
      simp [writeAll, Piece.text]
    · obtain ⟨htext, hcursor⟩ := ih ⟨some file, line, false, false⟩ hnil hus.2
      have hlead : lead ⟨some file, line, false, false⟩ file line = [] := if_pos ⟨rfl, rfl⟩
      rw [hlead] at htext
      refine ⟨?_, hcursor⟩
      rw [List.flatMap_append, htext]
      simp [Piece.text]

/-- A space or a line feed is written behind tokens that end. -/
theorem Scanned.head?_writeAll (h : Scanned dialect P line ps us) {c : Cursor} {file : Text}
    (hfile : c.file.isSome) (hstart : c.atLineStart = false)
    (hspace : c.pendingSpace ∨ startsSolid ps = false) :
    ∀ d ∈ ((c.writeAll file us).1.flatMap Piece.text).head?, d = ' ' ∨ d = '\n' := by
  induction h generalizing c with
  | nil => exact fun _ h => by cases h
  | @solid line ts x us vs ps _ _ hne _ hus _ _ _ =>
    have hpending : c.pendingSpace := hspace.resolve_right Bool.noConfusion
    rw [Cursor.writeAll_append, List.flatMap_append, (c.writeAll_solid file hne hus).1, Cursor.lead,
      hpending, hstart]
    split
    · rintro d ⟨⟩
      exact Or.inl rfl
    · rintro d ⟨⟩
      exact Or.inr rfl
  | dropped hps _ ih =>
    refine ih hfile hstart (Or.inr ?_)
    rcases hps with rfl | ⟨qs, rfl⟩ <;> rfl
  | blank hkind _ ih =>
    rw [Cursor.writeAll_cons, Cursor.write_blank c file hkind]
    exact ih hfile hstart (Or.inl rfl)
  | lineBreak hkind =>
    rw [Cursor.writeAll_cons, Cursor.write_newline c file hkind, if_pos hfile]
    rintro d ⟨⟩
    exact Or.inr rfl

theorem Rule.Readable.exists_head {x w : Text} (h : Rule.Readable x w) :
    ∃ c v, w = c :: v ∧ isBlank c = false := by
  cases h with
  | plain hc => exact ⟨_, _, rfl, isBlank_of_isPlain hc⟩
  | quoted hquote =>
    exact ⟨_, _, rfl, eq_false_of_mem (by decide) hquote⟩

theorem Glued.head?_glue {x : Text} {ts : List Unplaced} (h : Glued dialect x ts) (hne : ts ≠ [])
    (y : Text) : ∀ d ∈ (glue ts ++ y).head?, isBlank d = false := by
  cases h with
  | nil => exact absurd rfl hne
  | cons _ hreadable =>
    obtain ⟨c, v, hcv, hc⟩ := hreadable.exists_head
    rw [glue_cons, hcv]
    rintro d ⟨⟩
    exact hc

/-- The tokens of the output are those of the layout. -/
theorem Scanned.tokenize_writeAll (h : Scanned dialect P line ps us)
    (hlines : ∀ u ∈ us, u.line < unsignedLimit) {c : Cursor} {file : Text} {m : UInt64} {l : Lexer}
    (hc : c.file = some file → .ofNat c.line = m)
    (hl : Lexer.Before dialect ((c.writeAll file us).1.flatMap Piece.text) m c.atLineStart l) :
    l.tokenize.1 = tokensFrom (.ofNat line) ps ∧ l.tokenize.2.1 = none := by
  induction h generalizing c m l with
  | nil =>
    rw [Lexer.tokenize_of_rest_eq_nil hl.rest_eq]
    exact ⟨rfl, rfl⟩
  | @solid line ts x us vs ps hts hglued hne htext hus hps hvs ih =>
    rw [List.forall_mem_append] at hlines
    obtain ⟨u, hu⟩ := List.exists_mem_of_ne_nil us hne
    have hline : line < unsignedLimit := by
      rw [← (hus u hu).line_eq]
      exact hlines.1 u hu
    obtain ⟨hwrite, hcursor⟩ := c.writeAll_solid file hne hus
    rw [Cursor.writeAll_append, List.flatMap_append, hwrite, hcursor, htext,
      List.append_assoc] at hl
    have hhead := @Scanned.head?_writeAll _ _ _ _ _ hvs ⟨some file, line, false, false⟩ file rfl rfl
      (Or.inr hps)
    generalize hy : (Cursor.writeAll ⟨some file, line, false, false⟩ file vs).1.flatMap Piece.text =
      y at hl hhead
    have hends : Ends y := fun d hd => by
      rcases hhead d hd with rfl | rfl <;> decide
    have hmilder : Milder x y := by
      intro d hd hdy
      rcases hhead d hdy with rfl | rfl <;> exact absurd hd (by decide)
    obtain ⟨l₁, start, hreads₁, hl₁⟩ := Lexer.Before.lead hline hc (hglued.head?_glue hts y) hl
    obtain ⟨l₂, hreads₂, hl₂⟩ := Lexer.Before.tokens hglued hts hends hmilder hl₁
    rw [← hy] at hl₂
    obtain ⟨htokens, hfailure⟩ := ih hlines.2 (fun _ => rfl) hl₂
    have hreads := hreads₁.trans hreads₂
    refine ⟨?_, hreads.failure.trans hfailure⟩
    rw [hreads.tokens, htokens]
    rfl
  | dropped _ _ ih =>
    rw [tokensFrom_blank_zero]
    exact ih hlines hc hl
  | blank hkind _ ih =>
    rw [List.forall_mem_cons] at hlines
    rw [Cursor.writeAll_cons, Cursor.write_blank c file hkind] at hl
    rw [tokensFrom, ← UInt64.ofNat_add]
    exact ih (c := { c with pendingSpace := true }) hlines.2 hc hl
  | @lineBreak line u vs ps hkind _ ih =>
    rw [List.forall_mem_cons] at hlines
    rw [Cursor.writeAll_cons, Cursor.write_newline c file hkind] at hl
    rw [tokensFrom, ← UInt64.ofNat_one, ← UInt64.ofNat_add]
    by_cases hfile : c.file.isSome
    · rw [if_pos hfile] at hl
      obtain ⟨l', hreads, hl'⟩ := Lexer.Before.lineFeed hl
      have hnext : c.file = some file → .ofNat (Cursor.nextLine c.line) = m + 1 := by
        intro h
        rw [Cursor.nextLine, ← hc h, ← UInt64.ofNat_one, ← UInt64.ofNat_add]
        exact UInt64.ofNat_mod_size
      obtain ⟨htokens, hfailure⟩ :=
        ih (c := ⟨c.file, Cursor.nextLine c.line, true, false⟩) hlines.2 hnext hl'
      refine ⟨?_, hreads.failure.trans hfailure⟩
      rw [hreads.tokens, htokens]
      rfl
    · rw [if_neg hfile] at hl
      exact ih hlines.2 hc hl

end IdlFrontend
