import IdlFrontend.Proofs.Marker.Consumed
import IdlFrontend.Proofs.MarkedText.Separation

/-!
# What the lexer takes for directives

The lexer reads a pragma or a marker wherever a line of the output begins with a number
sign and goes on in the right way. Markers and enabled pragma lines are written so, but
ordinary text can be, too: the number sign of a macro body, or one behind a comment, is
the first character of its line if nothing else is written there.

Results:

* `MarkedText.WellMarked.sign_of_lineStart`: only a marker or a number sign begins a line
  with a number sign.
* `always_directiveStart`: where a stretch begins that the lexer takes for a directive.
* `always_directiveStart_text`: ordinary text is enough for one.
-/

namespace IdlFrontend

open Lexer MarkedText

/-! ## Number signs at the start of a line -/

namespace Pattern

/-- A pragma goes on with a letter of its own behind the number sign, a marker with a
    digit or with the first letter of the word `line`. -/
theorem exists_afterNumberSign? {lineStart : Bool} {cs : Text} {p : Pattern} {n : Nat}
    (hp : p = pragma ∨ p = lineMarker) (h : p.length? lineStart cs = some n) :
    ∃ c body, afterNumberSign? cs = some (c :: body) ∧
      (p = pragma ∧ c = 'p' ∨ p = lineMarker ∧ (c = 'l' ∨ c.isDigit)) := by
  rcases hp with rfl | rfl
  · simp only [length?] at h
    split at h
    · obtain ⟨_, hbody, -⟩ := Option.map_eq_some_iff.1 h
      simp only [afterPragma?, Option.bind_eq_bind, Option.bind_eq_some_iff] at hbody
      obtain ⟨body, hsign, hword⟩ := hbody
      split at hword
      next hprefix =>
        obtain ⟨rest, rfl⟩ := List.isPrefixOf_iff_prefix.1 hprefix
        exact ⟨'p', _, hsign, Or.inl ⟨rfl, rfl⟩⟩
      · cases hword
    · cases h
  · simp only [length?] at h
    split at h
    · simp only [lineMarkerLength?, afterLineWord?, Option.bind_eq_bind,
        Option.bind_eq_some_iff] at h
      obtain ⟨number, ⟨body, hsign, hnumber⟩, hdigit⟩ := h
      split at hnumber
      next hprefix =>
        obtain ⟨rest, rfl⟩ := List.isPrefixOf_iff_prefix.1 hprefix
        exact ⟨'l', _, hsign, Or.inr ⟨rfl, Or.inl rfl⟩⟩
      · cases hnumber
        split at hdigit
        next hcond =>
          cases number with
          | nil => simp at hcond
          | cons c body =>
            rw [Bool.and_eq_true, List.head?_cons, Option.any_some] at hcond
            exact ⟨c, body, hsign, Or.inr ⟨rfl, Or.inr hcond.1⟩⟩
        · cases hdigit
    · cases h

theorem afterNumberSign?_cons {c : Char} (hc : isBlank c = false) (cs : Text) :
    afterNumberSign? (c :: cs) = if c = '#' then some (cs.dropWhile isBlank) else none := by
  unfold afterNumberSign?
  rw [List.dropWhile_cons_of_neg (by simp [hc])]
  split
  next heq =>
    cases heq
    rw [if_pos rfl]
  next hne => rw [if_neg fun heq => hne cs (by rw [heq])]

end Pattern

/-- The part of a list, and the place in it, that an element of a concatenation is from. -/
theorem exists_of_flatMap_eq {α β : Type} {f : α → List β} {as : List α}
    {head tail : List β} {x : β} (h : as.flatMap f = head ++ x :: tail) :
    ∃ before a after xs ys, as = before ++ a :: after ∧ f a = xs ++ x :: ys ∧
      head = before.flatMap f ++ xs ∧ tail = ys ++ after.flatMap f := by
  induction as generalizing head with
  | nil => simp at h
  | cons a as ih =>
    have hlater (mid : List β) (hhead : head = f a ++ mid)
        (hrest : as.flatMap f = mid ++ x :: tail) :
        ∃ before b after xs ys, a :: as = before ++ b :: after ∧ f b = xs ++ x :: ys ∧
          head = before.flatMap f ++ xs ∧ tail = ys ++ after.flatMap f := by
      obtain ⟨before, b, after, xs, ys, rfl, hb, rfl, htail⟩ := ih hrest
      exact ⟨a :: before, b, after, xs, ys, rfl, hb, by simp [hhead], htail⟩
    rw [List.flatMap_cons] at h
    rcases List.append_eq_append_iff.1 h with ⟨mid, hhead, hmid⟩ | ⟨mid, hfirst, hmid⟩
    · exact hlater mid hhead hmid
    · cases mid with
      | nil => exact hlater [] (by simpa using hfirst.symm) (by simpa using hmid.symm)
      | cons y mid =>
        obtain ⟨rfl, htail⟩ := List.cons.inj hmid
        exact ⟨[], a, as, head, mid, rfl, hfirst, rfl, htail⟩

/-- The line ends in a part of the output: the line feed that ends a line feed or a marker,
    and carriage returns in literals. -/
theorem Piece.Fits.lineEnd {read : Text} {p : Piece} (h : p.Fits read) {xs ys : Text} {c : Char}
    (htext : p.text = xs ++ c :: ys) (hc : isLineEnd c) :
    (c = '\n' ∧ ys = []) ∨
      (c = '\r' ∧ ∃ t, p = .lexeme t ∧ (t.kind = .string ∨ t.kind = .character)) := by
  cases p with
  | marker line file =>
    have hmarker : markerLine line file ++ ['\n'] = xs ++ c :: ys := by
      rw [← marker_eq_append]
      exact htext
    rcases List.append_eq_append_iff.1 hmarker with ⟨mid, rfl, hmid⟩ | ⟨mid, hline, hmid⟩
    · cases mid with
      | nil =>
        cases hmid
        exact Or.inl ⟨rfl, rfl⟩
      | cons d mid => simp at hmid
    · cases mid with
      | nil =>
        cases hmid
        exact Or.inl ⟨rfl, rfl⟩
      | cons d mid =>
        obtain ⟨rfl, -⟩ := List.cons.inj hmid
        have hmem : c ∈ markerLine line file := by simp [hline]
        have hinline := isInline_of_mem_markerLine c hmem
        rw [Pattern.isInline, hc] at hinline
        cases hinline
  | lineFeed =>
    cases xs with
    | nil =>
      cases htext
      exact Or.inl ⟨rfl, rfl⟩
    | cons x xs => simp [Piece.text] at htext
  | space =>
    cases xs with
    | nil =>
      cases htext
      cases hc
    | cons x xs => simp [Piece.text] at htext
  | lexeme t =>
    have hmem : c ∈ t.text := by
      rw [show t.text = xs ++ c :: ys from htext]
      simp
    obtain ⟨hreturn, hkind⟩ :=
      Lexeme.literal_of_isLineEnd h.1 (Lexeme.isBlank_eq_false_iff.1 h.2) hmem hc
    exact Or.inr ⟨hreturn, t, rfl, hkind⟩

/-- A lexeme that begins with a number sign and does not go on with a second one. -/
theorem Lexeme.isPunct_of_head {t : Lexeme} (h : IsWhole t.kind t.text) {cs rest : Text}
    (htext : t.text = '#' :: cs) (hrest : ∀ c ∈ ((cs ++ rest).dropWhile IdlFrontend.isBlank).head?,
      c ≠ '#') :
    t.isPunct '#' := by
  rw [htext] at h
  obtain ⟨hkind, rfl | rfl⟩ := eq_of_isWhole_hash h
  · simp [isPunct, hkind, htext]
  · exact absurd rfl (hrest '#' rfl)

/-- Where a line of well-marked output begins with one number sign, up to blanks, a marker
    or a lexeme begins. The lexeme is the number sign. -/
theorem MarkedText.WellMarked.sign_of_lineStart {out : MarkedText} (h : out.WellMarked)
    {read rest body : Text} {c : Char} (hread : read ++ rest = out.text) (hend : EndsLine read)
    (hsign : Pattern.afterNumberSign? rest = some (c :: body)) (hc : c ≠ '#') :
    ∃ before p after, out.pieces = before ++ p :: after ∧ before.flatMap Piece.text = read ∧
      ((∃ line file, p = .marker line file) ∨ ∃ t, p = .lexeme t ∧ t.isPunct '#') := by
  cases rest with
  | nil => cases hsign
  | cons d rest =>
    obtain ⟨before, p, after, xs, ys, hpieces, htext, rfl, rfl⟩ := exists_of_flatMap_eq hread.symm
    have hfits := h.fits hpieces
    -- The place is where a part begins: no part has a line feed before its last character.
    have hxs : xs = [] := by
      rcases List.eq_nil_or_concat xs with hnil | ⟨front, e, rfl⟩
      · exact hnil
      · have he : e = '\n' := by
          rcases hend with hnil | hlast
          · simp at hnil
          · simpa using hlast
        rw [List.concat_eq_append, List.append_assoc, List.singleton_append] at htext
        rcases hfits.lineEnd htext (by rw [he]; rfl) with ⟨-, hnil⟩ | ⟨hreturn, -⟩
        · cases hnil
        · rw [he] at hreturn
          cases hreturn
    subst hxs
    rw [List.append_nil] at hend ⊢
    rw [List.nil_append] at htext
    refine ⟨before, p, after, hpieces, rfl, ?_⟩
    cases p with
    | marker line file => exact Or.inl ⟨line, file, rfl⟩
    | lineFeed =>
      cases htext
      rw [Pattern.afterNumberSign?_cons rfl] at hsign
      cases hsign
    | space => exact absurd hend hfits
    | lexeme t =>
      have htext : t.text = d :: ys := htext
      have hwhole := hfits.1
      have hspace := (Lexeme.isBlank_eq_false_iff.1 hfits.2).1
      rw [htext] at hwhole
      have hblank : isBlank d = false :=
        (Bool.or_eq_false_iff.1 (Lexeme.isSpace_eq_false_of_isWhole hwhole hspace)).1
      rw [Pattern.afterNumberSign?_cons hblank] at hsign
      split at hsign
      next hd =>
        have hhead : ∀ e ∈ ((ys ++ after.flatMap Piece.text).dropWhile isBlank).head?, e ≠ '#' := by
          rw [Option.some.inj hsign]
          rintro _ ⟨⟩
          exact hc
        exact Or.inr ⟨t, rfl, Lexeme.isPunct_of_head hfits.1 (hd ▸ htext) hhead⟩
      · cases hsign

/-- At the start of a line, a line feed has been read, or a carriage return. -/
theorem Lexer.Coherent.endsLine_or_return {read : Text} {l : Lexer} (h : Coherent read l)
    (hstart : l.atLineStart) : EndsLine read ∨ ∃ front, read = front ++ ['\r'] := by
  rw [h.lineStart] at hstart
  rcases List.eq_nil_or_concat read with rfl | ⟨front, c, rfl⟩
  · exact Or.inl (Or.inl rfl)
  · rw [List.concat_eq_append] at hstart ⊢
    rw [List.getLast?_concat] at hstart
    have hc : c = '\n' ∨ c = '\r' := by simpa [isLineEnd] using hstart
    rcases hc with rfl | rfl
    · exact Or.inl (endsLine_append_feed front)
    · exact Or.inr ⟨front, rfl⟩

/-! ## Pragma lines -/

/-- Behind a lexeme, the text of the next one follows after a space at most, if not a line
    break comes first. -/
theorem Cursor.exists_text_writeAll {c : Cursor} (hstart : c.atLineStart = false) (file : Text)
    {spaces : List Lexeme} (hspaces : ∀ t ∈ spaces, t.kind = .space) {word : Lexeme}
    (hword : word.isBlank = false) (rest : List Lexeme) :
    ∃ cs, (c.writeAll file (spaces ++ word :: rest)).1.flatMap Piece.text ∈
      ['\n' :: cs, word.text ++ cs, ' ' :: (word.text ++ cs)] := by
  induction spaces generalizing c with
  | nil =>
    rw [List.nil_append, writeAll_cons, write_of_not_isBlank c file hword, lead, hstart]
    generalize (Cursor.writeAll _ file rest).1 = ps
    split
    · refine ⟨ps.flatMap Piece.text, ?_⟩
      cases c.pendingSpace <;> simp [Piece.text]
    · exact ⟨marker word.line file ++ (word.text ++ ps.flatMap Piece.text), by simp [Piece.text]⟩
  | cons t spaces ih =>
    rw [List.forall_mem_cons] at hspaces
    rw [List.cons_append, writeAll_cons, write_blank c file (Or.inl hspaces.1)]
    exact ih hstart hspaces.2

theorem Cursor.atLineStart_writeAll_concat (c : Cursor) (file : Text) (ts : List Lexeme)
    {t : Lexeme} (ht : t.isBlank = false) :
    (c.writeAll file (ts ++ [t])).2.atLineStart = false := by
  rw [writeAll_append, writeAll_cons, write_of_not_isBlank _ file ht]
  rfl

/-! ## Directives -/

/-- Where a stretch `s` that the lexer takes for a directive begins: behind the first
    `start` characters of the output that the chunks make. -/
inductive DirectiveStart (chunks : List Chunk) (start : Nat) (s : Step) : Prop
  /-- At a marker, which is the whole of the stretch. -/
  | marker {before after : List Piece} {line : Nat} {file : Text}
      (pieces : (ofChunks chunks).pieces = before ++ .marker line file :: after)
      (place : (before.flatMap Piece.text).length = start)
      (text : s.text = marker line file) (meaning : s.rule.meaning = .lineMarker)
  /-- At the number sign of a pragma line. -/
  | pragmaLine {earlier later : List Chunk} {c : Chunk} {blanks rest : List Lexeme} {sign : Lexeme}
      (chunk : chunks = earlier ++ c :: later) (isPragma : c.isPragma)
      (lexemes : c.lexemes = blanks ++ sign :: rest) (isSign : sign.isPunct '#')
      (isFirst : ∀ t ∈ blanks, t.kind = .space)
      (place : ((ofChunks earlier).push c.file (blanks ++ [sign])).text.length = start + 1)
      (meaning : s.rule.meaning = .pragma)
  /-- At a number sign that is the first on its line of the output, but is text, or stands
      further on in a pragma line. -/
  | text {earlier later : List Chunk} {c : Chunk} {before after : List Lexeme} {sign : Lexeme}
      (chunk : chunks = earlier ++ c :: later) (lexemes : c.lexemes = before ++ sign :: after)
      (isSign : sign.isPunct '#') (notFirst : c.isPragma → ∃ t ∈ before, t.kind ≠ .space)
      (place : ((ofChunks earlier).push c.file (before ++ [sign])).text.length = start + 1)
      (lineStart : EndsLine ((ofChunks chunks).text.take start))
  /-- Behind a carriage return in a quoted literal. -/
  | literal {before after : List Piece} {t : Lexeme} {xs ys : Text}
      (pieces : (ofChunks chunks).pieces = before ++ .lexeme t :: after)
      (isLiteral : t.kind = .string ∨ t.kind = .character) (text : t.text = xs ++ '\r' :: ys)
      (place : (before.flatMap Piece.text).length + xs.length + 1 = start)

theorem Rule.pattern_of_directive {mode : Mode} {r : Rule} (hr : r ∈ Rule.inMode mode)
    (h : r.meaning = .pragma ∨ r.meaning = .lineMarker) :
    (r.pattern = .pragma ∧ r.meaning = .pragma) ∨
      (r.pattern = .lineMarker ∧ r.meaning = .lineMarker) := by
  have hrules : ∀ r ∈ Rule.inMode mode, r.meaning = .pragma ∨ r.meaning = .lineMarker →
      (r.pattern = .pragma ∧ r.meaning = .pragma) ∨
        (r.pattern = .lineMarker ∧ r.meaning = .lineMarker) := by
    cases mode <;> decide
  exact hrules r hr h

/-- The number sign that a stretch begins with is that of a pragma line, or text. -/
theorem DirectiveStart.of_sign {given : SourceFile → Prop} {chunks : List Chunk}
    (hchunks : ∀ c ∈ chunks, c.ComesFrom given) {read rest : Text}
    (hread : read ++ rest = (ofChunks chunks).text) (hend : EndsLine read) {c : Char} {body : Text}
    (hsign : Pattern.afterNumberSign? rest = some (c :: body)) {s : Step}
    (hpragma : c = 'p' → s.rule.meaning = .pragma) (hfeed : c ≠ '\n')
    {before after : List Piece} {t : Lexeme}
    (hpieces : (ofChunks chunks).pieces = before ++ .lexeme t :: after)
    (hbefore : before.flatMap Piece.text = read) (ht : t.isPunct '#') :
    DirectiveStart chunks read.length s := by
  have htext := Lexeme.text_of_isPunct ht
  obtain ⟨earlier, chunk, later, us, vs, hsplit, hlexemes, hwritten⟩ :=
    exists_of_pushAll_eq (show (pushAll {} chunks).pieces = [] ++ before ++ _ from hpieces)
  have hplace : ((ofChunks earlier).push chunk.file (us ++ [t])).text = read ++ ['#'] := by
    rw [MarkedText.text, ofChunks, hwritten, List.flatMap_append, List.flatMap_append, hbefore]
    simp [Piece.text, htext]
  have hlength : ((ofChunks earlier).push chunk.file (us ++ [t])).text.length =
      read.length + 1 := by
    rw [hplace, List.length_append, List.length_singleton]
  by_cases hfirst : chunk.isPragma ∧ ∀ u ∈ us, u.kind = .space
  · -- What stands behind the sign tells which of the two rules reads it.
    obtain ⟨hisPragma, hus⟩ := hfirst
    obtain ⟨file, -, hline⟩ := hchunks chunk (by rw [hsplit]; simp)
    rw [if_pos hisPragma] at hline
    obtain ⟨blanks, sign, spaces, word, more, hshape, hblanks, hsign', hspaces, hword, hwordText⟩ :=
      hline.exists_shape
    have hdrop {as : List Lexeme} (has : ∀ u ∈ as, u.kind = .space) {u : Lexeme}
        (hu : u.isPunct '#') (bs : List Lexeme) :
        (as ++ u :: bs).dropWhile (·.kind == .space) = u :: bs := by
      have hspace := (Lexeme.isBlank_eq_false_iff.1 (Lexeme.isBlank_of_isPunct hu)).1
      rw [List.dropWhile_append_of_pos (by simpa using has),
        List.dropWhile_cons_of_neg (by simpa using hspace)]
    have hvs : vs = spaces ++ word :: more := by
      have heq := hdrop hus ht vs
      rw [← hlexemes, hshape, hdrop hblanks hsign'] at heq
      exact (List.cons.inj heq).2.symm
    refine .pragmaLine hsplit hisPragma hlexemes ht hus hlength (hpragma ?_)
    obtain ⟨further, hfurther⟩ := exists_pieces_pushAll
      (((ofChunks earlier).push chunk.file (us ++ [t])).push chunk.file vs) later
    have hall : (ofChunks chunks).pieces = (((ofChunks earlier).push chunk.file (us ++ [t])).push
        chunk.file vs).pieces ++ further := by
      rw [← hfurther, ← push_append, hsplit, ofChunks, pushAll_append, pushAll_cons, hlexemes,
        List.append_assoc]
      rfl
    have hrest : rest = '#' :: ((((ofChunks earlier).push chunk.file (us ++ [t])).cursor.writeAll
        chunk.file vs).1.flatMap Piece.text ++ further.flatMap Piece.text) := by
      rw [← List.append_right_inj read, hread, MarkedText.text, hall, pieces_push,
        List.flatMap_append, List.flatMap_append]
      show ((ofChunks earlier).push chunk.file (us ++ [t])).text ++ _ ++ _ = _
      rw [hplace]
      simp
    have hstart : ((ofChunks earlier).push chunk.file (us ++ [t])).cursor.atLineStart = false :=
      Cursor.atLineStart_writeAll_concat _ _ _ (Lexeme.isBlank_of_isPunct ht)
    obtain ⟨cs, hcs⟩ := Cursor.exists_text_writeAll hstart chunk.file hspaces hword more
    rw [hrest, hvs, Pattern.afterNumberSign?_cons rfl, if_pos rfl] at hsign
    have hdropText := Option.some.inj hsign
    simp only [hwordText, List.mem_cons, List.not_mem_nil, or_false] at hcs
    rcases hcs with hcs | hcs | hcs
    · rw [hcs] at hdropText
      exact absurd (List.cons.inj hdropText).1.symm hfeed
    · rw [hcs] at hdropText
      exact (List.cons.inj hdropText).1.symm
    · rw [hcs] at hdropText
      exact (List.cons.inj hdropText).1.symm
  · refine .text hsplit hlexemes ht (fun hisPragma => ?_) hlength ?_
    · have hnot : ¬∀ u ∈ us, u.kind = .space := fun hus => hfirst ⟨hisPragma, hus⟩
      simpa using hnot
    · rwa [← hread, List.take_left]

/-- A stretch of well-marked output that the lexer takes for a directive begins in one of
    the four ways. -/
theorem directiveStart_of_step {given : SourceFile → Prop} {chunks : List Chunk}
    (hchunks : ∀ c ∈ chunks, c.ComesFrom given) (hwell : (ofChunks chunks).WellMarked)
    {dialect : Dialect} {before after : List Step} {s : Step}
    (hss : (ofText dialect (ofChunks chunks).text).steps = before ++ s :: after)
    (hmeaning : s.rule.meaning = .pragma ∨ s.rule.meaning = .lineMarker) :
    DirectiveStart chunks (readLength before) s := by
  obtain ⟨l, hcoherent, hs, -, hread⟩ :=
    exists_of_steps_eq (I := Coherent) (fun h => h.step) (coherent_ofText dialect _) hss
  rw [List.nil_append] at hcoherent
  have hread : before.flatMap Step.text ++ l.rest = (ofChunks chunks).text := hread
  obtain ⟨n, r, hmatch, rfl⟩ := step?_eq_some_iff.1 hs
  obtain ⟨hr, hlen⟩ := Rule.longestMatch_mem hmatch
  have hmeanings := Rule.pattern_of_directive hr hmeaning
  have hpattern : r.pattern = .pragma ∨ r.pattern = .lineMarker := hmeanings.imp And.left And.left
  obtain ⟨hstart, -⟩ := Pattern.lineStart_of_length? hpattern hlen
  obtain ⟨c, body, hsign, hc⟩ := Pattern.exists_afterNumberSign? hpattern hlen
  have hfirst : c ≠ '#' ∧ c ≠ '\n' := by
    rcases hc with ⟨-, rfl⟩ | ⟨-, rfl | hdigit⟩
    · decide
    · decide
    · constructor <;> rintro rfl <;> exact absurd hdigit (by decide)
  rcases hcoherent.endsLine_or_return hstart with hend | ⟨front, hfront⟩
  · obtain ⟨pre, p, post, hpieces, hpre, hp⟩ := hwell.sign_of_lineStart hread hend hsign hfirst.1
    rcases hp with ⟨line, file, rfl⟩ | ⟨t, rfl, ht⟩
    · have hrest : l.rest = marker line file ++ post.flatMap Piece.text := by
        rw [← List.append_right_inj (before.flatMap Step.text), hread, ← hpre, MarkedText.text,
          hpieces, List.flatMap_append, List.flatMap_cons]
        rfl
      obtain ⟨hstext, hrule, -⟩ := hcoherent.step_marker hstart hrest hs
      exact .marker hpieces (by rw [hpre, readLength]) hstext (by rw [hrule])
    · refine DirectiveStart.of_sign hchunks hread hend hsign (fun hp => ?_) hfirst.2 hpieces hpre ht
      rcases hmeanings with ⟨-, hpragma⟩ | ⟨hlineMarker, -⟩
      · exact hpragma
      · rcases hc with ⟨hpragma, -⟩ | ⟨-, hl | hdigit⟩
        · rw [hlineMarker] at hpragma
          cases hpragma
        · rw [hp] at hl
          exact absurd hl (by decide)
        · rw [hp] at hdigit
          exact absurd hdigit (by decide)
  · -- A carriage return stands in literals only.
    have hsplit : (ofChunks chunks).pieces.flatMap Piece.text = front ++ '\r' :: l.rest := by
      rw [← MarkedText.text, ← hread, hfront, List.append_assoc]
      rfl
    obtain ⟨pre, p, post, xs, ys, hpieces, htext, hpre, -⟩ := exists_of_flatMap_eq hsplit
    rcases (hwell.fits hpieces).lineEnd htext rfl with ⟨hfeed, -⟩ | ⟨-, t, rfl, hkind⟩
    · cases hfeed
    · refine .literal hpieces hkind htext ?_
      rw [readLength, hfront, hpre, List.length_append, List.length_append, List.length_singleton]

/-- **What the lexer takes for a directive need not be one.** Let `given` hold of the file
    and of all files that the store gives out. Then the output is written in chunks, each
    of them what is kept of an enabled pragma line, or the expansion of text, of one of
    these files, and in every run of the lexer over it, a stretch that is read as a pragma
    or as a marker

    * is a marker that was written, read as one; or
    * begins at the number sign of a pragma line, and is read as a pragma; or
    * begins at another number sign, one that is text or stands further on in a pragma
      line, but is the first character on its line of the output; or
    * begins behind a carriage return in a quoted literal. -/
theorem always_directiveStart {m : Type → Type} [Monad m] [LawfulMonad m] {store : SourceStore m}
    (defines : List Predefinition) {file : SourceFile} {given : SourceFile → Prop}
    (hgiven : given file)
    (hstore : ∀ request, Always (fun found => ∀ file ∈ found, given file) (store.find request)) :
    Always (fun r => ∀ out, r = .ok out → ∃ chunks, out = ofChunks chunks ∧
      (∀ c ∈ chunks, c.ComesFrom given) ∧
      ∀ (dialect : Dialect) (before after : List Step) (s : Step),
        (ofText dialect out.text).steps = before ++ s :: after →
        s.rule.meaning = .pragma ∨ s.rule.meaning = .lineMarker →
        DirectiveStart chunks (readLength before) s)
      (preprocessMarked store defines file) := by
  refine (Session.always_written_preprocessMarked defines hgiven hstore).mono
    fun r hr out hout => ?_
  have hwell := (hr out hout).wellMarked
  obtain ⟨chunks, rfl, hchunks⟩ := hr out hout
  exact ⟨chunks, rfl, fun c hc => (hchunks c hc).1, fun dialect before after s hss hmeaning =>
    directiveStart_of_step (fun c hc => (hchunks c hc).1) hwell hss hmeaning⟩

/-- A macro that stands for a number sign makes a line of text a marker. -/
theorem always_directiveStart_text :
    ∃ (out : MarkedText) (chunks : List Chunk) (before after : List Step) (s : Step),
      preprocessMarked (m := Id) (SourceStore.ofList []) []
        ⟨['f'], "#define H #\nH 7\n".toList⟩ = .ok out ∧
      out = ofChunks chunks ∧
      (∀ c ∈ chunks, c.ComesFrom (· = ⟨['f'], "#define H #\nH 7\n".toList⟩)) ∧
      (ofText .omg out.text).steps = before ++ s :: after ∧ s.rule.meaning = .lineMarker ∧
      DirectiveStart chunks (readLength before) s ∧
      ∀ before' line name after', out.pieces = before' ++ .marker line name :: after' →
        (before'.flatMap Piece.text).length ≠ readLength before := by
  obtain ⟨out, hpieces, hrun⟩ : ∃ out : MarkedText,
      out.pieces = [.marker 2 ['f'], .lexeme ⟨.punctuation, ['#'], 2⟩, .space,
        .lexeme ⟨.number, ['7'], 2⟩, .lineFeed] ∧
      (Id.run (preprocessMarked (m := Id) (SourceStore.ofList []) []
        ⟨['f'], "#define H #\nH 7\n".toList⟩)).toOption = some out :=
    ⟨⟨_, ⟨some ['f'], 3, true, false⟩⟩, rfl, by decide +kernel⟩
  have hout : preprocessMarked (m := Id) (SourceStore.ofList []) []
      ⟨['f'], "#define H #\nH 7\n".toList⟩ = .ok out := by
    unfold Except.toOption at hrun
    split at hrun
    next heq => exact heq.trans (congrArg Except.ok (Option.some.inj hrun))
    · cases hrun
  have htext : out.text = "# 2 \"f\"\n# 7\n".toList := by
    rw [MarkedText.text, hpieces]
    decide +kernel
  -- The first of two steps reads the marker that was written, the second one the text.
  have hsteps : ((ofText .omg out.text).stepsWithin 2).any fun ss =>
      decide (ss.map (fun s => (s.text.length, s.rule.meaning)) =
        [(8, .lineMarker), (4, .lineMarker)]) := by
    rw [htext]
    decide +kernel
  obtain ⟨ss, hss, hmap⟩ := (Option.any_eq_true _ _).1 hsteps
  obtain ⟨first, rest, rfl, hfirst, hrest⟩ := List.map_eq_cons_iff.1 (of_decide_eq_true hmap)
  obtain ⟨second, last, rfl, hsecond, hlast⟩ := List.map_eq_cons_iff.1 hrest
  obtain ⟨hlength, -⟩ := Prod.mk.inj hfirst
  obtain ⟨-, hmeaning⟩ := Prod.mk.inj hsecond
  have hsplit := (steps_of_stepsWithin hss).1
  obtain ⟨chunks, hwritten, hcomes, hstart⟩ := always_id_iff.1
    (@always_directiveStart Id _ _ (SourceStore.ofList []) []
      ⟨['f'], "#define H #\nH 7\n".toList⟩ (· = ⟨['f'], "#define H #\nH 7\n".toList⟩) rfl
      (always_find_ofList (List.forall_mem_nil _))) out hout
  refine ⟨out, chunks, [first], last, second, hout, hwritten, hcomes, hsplit, hmeaning,
    hstart .omg [first] last second hsplit (Or.inr hmeaning), fun before line name after heq => ?_⟩
  -- The only marker stands at the start.
  have hbefore : before = [] := by
    rw [hpieces] at heq
    cases before with
    | nil => rfl
    | cons p before =>
      have hmem : Piece.marker line name ∈ before ++ .marker line name :: after := by simp
      rw [← show _ = before ++ .marker line name :: after from (List.cons.inj heq).2] at hmem
      simp at hmem
  rw [hbefore, readLength_cons, hlength]
  decide

end IdlFrontend
