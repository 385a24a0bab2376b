import Mathlib.Data.List.Chain
import IdlFrontend.Preprocess.Session
import IdlFrontend.Proofs.Lexeme.Compact
import IdlFrontend.Proofs.Lexeme.LineEnds
import IdlFrontend.Proofs.Lexeme.Place
import IdlFrontend.Proofs.Source.Tidy

/-!
# Neighbours on a line

A run of space is one lexeme, and a line without comments stands on one line of its file. Its
text with each run of space as a single one is that of its lexemes, one after the other.

Results:

* `isChain_scanFrom`: what is known of two neighbouring lexemes of a text.
* `getLast?_of_lines`, `kind_of_mem_dropLast`: a line feed ends every line but the last, and stands
  nowhere else.
* `isInline_of_mem_sourceLines`: no lexeme of a source line that is not blank has a line end in it.
-/

namespace IdlFrontend

/-! ## The characters of a source -/

namespace Source

open Text

theorem isLineEnd_of_mem_physicalLines (cs : Text) :
    ∀ line ∈ cs.physicalLines, ∀ c ∈ line, isLineEnd c = false := by
  fun_induction physicalLines cs with
  | case1 => exact List.forall_mem_nil _
  | case2 cs ih | case3 c cs _ _ ih => exact List.forall_mem_cons.2 ⟨List.forall_mem_nil _, ih⟩
  | case4 c cs _ hend _ ih =>
    exact List.forall_mem_singleton.2 (List.forall_mem_singleton.2 (by simpa using hend))
  | case5 c cs _ hend line lines hlines ih =>
    rw [hlines, List.forall_mem_cons] at ih
    exact List.forall_mem_cons.2 ⟨List.forall_mem_cons.2 ⟨by simpa using hend, ih.1⟩, ih.2⟩

variable {P : Char → Prop}

theorem forall_mem_spliceOnto {current : Text} {lines : List Text} (hcurrent : ∀ c ∈ current, P c)
    (hlines : ∀ line ∈ lines, ∀ c ∈ line, P c) (absorbed : Nat) :
    ∀ line ∈ spliceOnto current absorbed lines, ∀ c ∈ line, P c := by
  have hempty (n : Nat) : ∀ line ∈ List.replicate n ([] : Text), ∀ c ∈ line,
      P c := fun line hline =>
    (List.mem_replicate.1 hline).2 ▸ List.forall_mem_nil _
  induction lines generalizing current absorbed with
  | nil => exact List.forall_mem_cons.2 ⟨hcurrent, hempty absorbed⟩
  | cons next lines ih =>
    rw [List.forall_mem_cons] at hlines
    rw [spliceOnto]
    split
    · refine ih (List.forall_mem_append.2 ⟨fun c hc => ?_, hlines.1⟩) hlines.2 _
      exact hcurrent c (List.dropLast_subset _ hc)
    · refine List.forall_mem_cons.2 ⟨hcurrent, List.forall_mem_append.2 ⟨hempty absorbed, ?_⟩⟩
      exact ih hlines.1 hlines.2 0

theorem forall_mem_join {separator : Text} (hseparator : ∀ c ∈ separator, P c) {parts : List Text}
    (hparts : ∀ part ∈ parts, ∀ c ∈ part, P c) : ∀ c ∈ Text.join separator parts, P c := by
  induction parts with
  | nil => exact List.forall_mem_nil _
  | cons part parts ih =>
    rw [List.forall_mem_cons] at hparts
    cases parts with
    | nil => simpa [Text.join] using hparts.1
    | cons next parts =>
      rw [join_cons_cons]
      exact List.forall_mem_append.2 ⟨hparts.1, List.forall_mem_append.2 ⟨hseparator, ih hparts.2⟩⟩

theorem isLineEnd_of_mem_splice {cs line : Text}
    (hline : line ∈ splice (cs.physicalLines.map (Text.trimEnd isWhiteSpace))) :
    ∀ c ∈ line, isLineEnd c = false := by
  have hlines : ∀ line ∈ cs.physicalLines.map (Text.trimEnd isWhiteSpace),
      ∀ c ∈ line, isLineEnd c = false := by
    intro line hline c hc
    obtain ⟨whole, hwhole, rfl⟩ := List.mem_map.1 hline
    have hsuffix := trimEnd_append_suffix isWhiteSpace whole
    exact isLineEnd_of_mem_physicalLines cs whole hwhole c (hsuffix ▸ List.mem_append_left _ hc)
  unfold splice at hline
  split at hline
  · exact absurd hline List.not_mem_nil
  next line lines heq =>
    rw [heq, List.forall_mem_cons] at hlines
    exact forall_mem_spliceOnto hlines.1 hlines.2 0 _ hline

/-- A line feed is all that is left of the line breaks of a source. -/
theorem eq_lineFeed_of_mem_joinContinuations {cs : Text} {c : Char} (hc : c ∈ joinContinuations cs)
    (hend : isLineEnd c) : c = '\n' := by
  have hall : ∀ c ∈ joinContinuations cs, c = '\n' ∨ isLineEnd c = false := by
    refine List.forall_mem_append.2 ⟨forall_mem_join (by simp) fun line hline c hc =>
      Or.inr (isLineEnd_of_mem_splice hline c hc), ?_⟩
    split
    · exact List.forall_mem_singleton.2 (Or.inl rfl)
    · exact List.forall_mem_nil _
  refine (hall c hc).resolve_right fun hinline => ?_
  rw [hinline] at hend
  cases hend

end Source

namespace Lexeme

/-! ## Neighbours -/

/-- What is known of two neighbouring lexemes of a text: they are not both space, and only behind
    a line feed or a comment another line can begin. -/
structure Adjoins (t u : Lexeme) : Prop where
  space : t.kind = .space → u.kind ≠ .space
  line : t.kind ≠ .newline → t.kind ≠ .comment → u.line = t.line

theorem count_lineFeed_of_isWhole {kind : LexemeKind} {text : Text} (h : IsWhole kind text)
    (hnewline : kind ≠ .newline) (hcomment : kind ≠ .comment) : text.count '\n' = 0 := by
  refine List.count_eq_zero.2 fun hmem => ?_
  by_cases hspace : kind = .space
  · subst hspace
    exact absurd (isSpace_of_isWhole_space h '\n' hmem) (by decide)
  · have := (literal_of_isLineEnd h ⟨hspace, hnewline, hcomment⟩ hmem rfl).1
    exact absurd this (by decide)

theorem isChain_scanFrom (line : Nat) (cs : Text) : (scanFrom line cs).IsChain Adjoins := by
  fun_induction scanFrom line cs with
  | case1 => exact .nil
  | case2 line c cs kind n h text ih =>
    refine List.isChain_cons.2 ⟨fun u hu => ⟨fun hkind => ?_, fun hnewline hcomment => ?_⟩, ih⟩
    · obtain rfl : kind = .space := hkind
      have hspace := extent_of_isSpace (isSpace_of_extent h) cs
      obtain rfl : n = (cs.takeWhile isSpace).length := congrArg Prod.snd (h.symm.trans hspace)
      exact kind_ne_space_of_mem_head?_scanFrom head?_drop_takeWhile u hu
    · have hmem : (⟨kind, text, line⟩ : Lexeme) ∈ scanFrom line (c :: cs) := by
        rw [scanFrom_cons, h]
        exact List.mem_cons_self
      have hwhole : IsWhole kind text := isWhole_of_mem_scanFrom _ hmem
      have hcount := count_lineFeed_of_isWhole hwhole hnewline hcomment
      have hline {line : Nat} {ds : Text} (hu : u ∈ (scanFrom line ds).head?) : u.line = line := by
        cases ds with
        | nil =>
          rw [scanFrom] at hu
          cases hu
        | cons d ds =>
          rw [scanFrom_cons] at hu
          cases hu
          rfl
      rw [hline hu, hcount]
      rfl

/-! ## Lines -/

theorem kind_of_mem_dropLast {ts line : List Lexeme} (h : line ∈ lines ts) :
    ∀ t ∈ line.dropLast, t.kind ≠ .newline := by
  fun_induction lines ts generalizing line with
  | case1 => cases h
  | case2 t ts ht ih =>
    rcases List.mem_cons.1 h with rfl | h
    · exact List.forall_mem_nil _
    · exact ih h
  | case3 t ts ht hnil ih =>
    cases List.mem_singleton.1 h
    exact List.forall_mem_nil _
  | case4 t ts ht first rest hlines ih =>
    rw [hlines] at ih
    rcases List.mem_cons.1 h with rfl | h
    · intro u hu
      cases first with
      | nil => cases hu
      | cons v first =>
        rw [List.dropLast_cons_cons] at hu
        rcases List.mem_cons.1 hu with rfl | hu
        · exact ht
        · exact ih List.mem_cons_self u hu
    · exact ih (List.mem_cons_of_mem _ h)

theorem ne_nil_of_mem_lines {ts line : List Lexeme} (h : line ∈ lines ts) : line ≠ [] := by
  fun_induction lines ts generalizing line with
  | case1 => cases h
  | case2 t ts ht ih =>
    rcases List.mem_cons.1 h with rfl | h
    · exact List.cons_ne_nil _ _
    · exact ih h
  | case3 t ts ht hnil ih =>
    cases List.mem_singleton.1 h
    exact List.cons_ne_nil _ _
  | case4 t ts ht first rest hlines ih =>
    rw [hlines] at ih
    rcases List.mem_cons.1 h with rfl | h
    · exact List.cons_ne_nil _ _
    · exact ih (List.mem_cons_of_mem _ h)

/-- Only the last line can lack its line feed. -/
theorem getLast?_of_lines {ts line next : List Lexeme} {before after : List (List Lexeme)}
    (h : lines ts = before ++ line :: next :: after) : ∀ t ∈ line.getLast?, t.kind = .newline := by
  fun_induction lines ts generalizing before line with
  | case1 => simp at h
  | case2 t ts ht ih =>
    cases before with
    | nil =>
      obtain ⟨rfl, -⟩ := List.cons.inj h
      rintro u ⟨⟩
      exact ht
    | cons first before => exact ih (List.cons.inj h).2
  | case3 t ts ht hnil ih => cases before <;> simp at h
  | case4 t ts ht first rest hlines ih =>
    cases before with
    | nil =>
      obtain ⟨rfl, rfl⟩ := List.cons.inj h
      have hfirst : first ≠ [] := ne_nil_of_mem_lines (hlines ▸ List.mem_cons_self)
      obtain ⟨u, us, rfl⟩ := List.exists_cons_of_ne_nil hfirst
      rw [List.getLast?_cons_cons]
      exact ih (show lines ts = [] ++ (u :: us) :: next :: after from hlines)
    | cons whole before =>
      obtain ⟨-, rfl⟩ := List.cons.inj h
      exact ih (show lines ts = (first :: before) ++ line :: next :: after from hlines)

/-- The text of lexemes with each run of space as a single space. A literal is a lexeme of its own,
    and the space in it stays. -/
def collapsed (ts : List Lexeme) : Text :=
  ts.flatMap fun t => if t.kind = .space then [' '] else t.text

theorem collapsed_cons (t : Lexeme) (ts : List Lexeme) :
    collapsed (t :: ts) = (if t.kind = .space then [' '] else t.text) ++ collapsed ts :=
  List.flatMap_cons

theorem collapsed_append (ts us : List Lexeme) :
    collapsed (ts ++ us) = collapsed ts ++ collapsed us :=
  List.flatMap_append

/-- The lexemes stand on one line, the line `n`, and hold all of the space on it. -/
structure OneLine (n : Nat) (ts : List Lexeme) : Prop where
  line : ∀ t ∈ ts, t.line = n
  kind : ∀ t ∈ ts, t.kind ≠ .newline ∧ t.kind ≠ .comment
  space : ts.IsChain fun t u => t.kind = .space → u.kind ≠ .space

theorem exists_oneLine {ts : List Lexeme} (hts : ts.IsChain Adjoins)
    (hkind : ∀ t ∈ ts, t.kind ≠ .newline ∧ t.kind ≠ .comment) : ∃ n, OneLine n ts := by
  obtain ⟨n, hline⟩ : ∃ n, ∀ t ∈ ts, t.line = n := by
    induction ts with
    | nil => exact ⟨0, List.forall_mem_nil _⟩
    | cons t ts ih =>
      rw [List.forall_mem_cons] at hkind
      rw [List.isChain_cons] at hts
      obtain ⟨n, hrest⟩ := ih hts.2 hkind.2
      refine ⟨t.line, List.forall_mem_cons.2 ⟨rfl, fun u hu => ?_⟩⟩
      cases ts with
      | nil => cases hu
      | cons v ts =>
        have hfirst := (hts.1 v rfl).line hkind.1.1 hkind.1.2
        rw [hrest u hu, ← hfirst, hrest v List.mem_cons_self]
  exact ⟨n, hline, hkind, hts.imp fun _ _ h => h.space⟩

theorem OneLine.tail {n : Nat} {t : Lexeme} {ts : List Lexeme} (h : OneLine n (t :: ts)) :
    OneLine n ts :=
  ⟨fun u hu => h.line u (List.mem_cons_of_mem _ hu), fun u hu => h.kind u
    (List.mem_cons_of_mem _ hu), h.space.tail⟩

/-! ## Lines of a source -/

theorem mem_scan_of_mem_sourceLines {contents : Text} {group : List Lexeme}
    (h : group ∈ Session.sourceLines contents) {t : Lexeme} (ht : t ∈ group) :
    t ∈ scan (Source.joinContinuations (Source.replaceTrigraphs contents)) := by
  rw [← flatten_lines (scan _)]
  exact List.mem_flatten_of_mem h ht

theorem isInline_of_mem_sourceLines {contents : Text} {group : List Lexeme}
    (h : group ∈ Session.sourceLines contents) {t : Lexeme} (ht : t ∈ group)
    (hblank : t.isBlank = false) :
    ∀ c ∈ t.text, Pattern.isInline c := by
  have hmem := mem_scan_of_mem_sourceLines h ht
  intro c hc
  rw [Pattern.isInline, Bool.not_eq_true', ← Bool.not_eq_true]
  intro hend
  have hreturn :=
    (literal_of_isLineEnd (isWhole_of_mem_scan t hmem) (isBlank_eq_false_iff.1 hblank) hc hend).1
  have hsource : c ∈ Source.joinContinuations (Source.replaceTrigraphs contents) := by
    rw [← text_flatten_scanFrom 1 (Source.joinContinuations _)]
    exact List.mem_flatten_of_mem (List.mem_map_of_mem hmem) hc
  have hfeed := Source.eq_lineFeed_of_mem_joinContinuations hsource hend
  rw [hreturn] at hfeed
  exact absurd hfeed (by decide)

end Lexeme

end IdlFrontend
