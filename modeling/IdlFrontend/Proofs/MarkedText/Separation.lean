import IdlFrontend.Preprocess.MarkedText
import IdlFrontend.Proofs.Lexeme.Whole
import IdlFrontend.Proofs.Macro.Closure

/-!
# Reading back what was written

Lexemes are written next to each other, with a space where blanks stood between
them and a line feed where a marker has to follow. Nothing else keeps them apart.
Expansion brings lexemes together that never touched in the source, and then one
may run on into the next.

Results:

* `head?_unmarked_writeAll`: the character that is written behind a lexeme.
* `significant_scan_push_expand_iff`: the lexemes of an expansion are read back from
  the output exactly if none of them runs on into the character behind it.
* `significant_scan_push_expand_joined`: the two arguments of one invocation may
  become one word.
-/

namespace IdlFrontend

/-! ## What is read back -/

/-- Whether a part of the output is a marker line. -/
def Piece.isMarker : Piece → Bool
  | .marker _ _ => true
  | _ => false

/-- The characters of the output without its marker lines. -/
def unmarked (ps : List Piece) : Text := (ps.filter (!·.isMarker)).flatMap Piece.text

@[simp] theorem unmarked_nil : unmarked [] = [] := rfl

@[simp] theorem unmarked_append (ps qs : List Piece) :
    unmarked (ps ++ qs) = unmarked ps ++ unmarked qs := by
  simp [unmarked]

namespace Lexeme

/-- The kinds and texts of the lexemes that are not blank. -/
def significant (ts : List Lexeme) : List (LexemeKind × Text) :=
  (ts.filter (!·.isBlank)).map fun t => (t.kind, t.text)

theorem significant_cons_of_isBlank {t : Lexeme} (h : t.isBlank) (ts : List Lexeme) :
    significant (t :: ts) = significant ts := by
  simp [significant, h]

theorem significant_cons_of_not_isBlank {t : Lexeme} (h : t.isBlank = false) (ts : List Lexeme) :
    significant (t :: ts) = (t.kind, t.text) :: significant ts := by
  simp [significant, h]

/-- The character that is written behind a lexeme on the given line, if more
    lexemes follow it. `blank` tells whether a blank has been read since. -/
def nextChar? (line : Nat) (blank : Bool) : List Lexeme → Option Char
  | [] => none
  | u :: us => match u.kind with
    | .newline => some '\n'
    | .space | .comment => nextChar? line true us
    | _ => if u.line ≠ line then some '\n' else if blank then some ' ' else u.text.head?

theorem nextChar?_newline {u : Lexeme} (h : u.kind = .newline) (line : Nat) (blank : Bool)
    (us : List Lexeme) : nextChar? line blank (u :: us) = some '\n' := by
  simp only [nextChar?, h]

theorem nextChar?_blank {u : Lexeme} (h : u.kind = .space ∨ u.kind = .comment) (line : Nat)
    (blank : Bool) (us : List Lexeme) :
    nextChar? line blank (u :: us) = nextChar? line true us := by
  rcases h with h | h <;> simp only [nextChar?, h]

theorem nextChar?_significant {u : Lexeme} (h : u.isBlank = false) (line : Nat) (blank : Bool)
    (us : List Lexeme) :
    nextChar? line blank (u :: us) =
      if u.line ≠ line then some '\n' else if blank then some ' ' else u.text.head? := by
  obtain ⟨h₁, h₂, h₃⟩ := isBlank_eq_false_iff.1 h
  unfold nextChar?
  split <;> first | contradiction | rfl

/-- No lexeme runs on into what is written behind it. -/
def Separated : List Lexeme → Prop
  | [] => True
  | t :: ts => (∀ c ∈ nextChar? t.line false ts, runsInto t.kind t.text c = false) ∧ Separated ts

instance decidableSeparated : DecidablePred Separated
  | [] => isTrue trivial
  | t :: ts =>
    have := decidableSeparated ts
    decidable_of_iff
      ((nextChar? t.line false ts).all (fun c => !runsInto t.kind t.text c) = true ∧ Separated ts)
      (by rw [Separated]; cases nextChar? t.line false ts <;> simp)

/-! ## Ink -/

/-- The number of characters that are not white space. -/
def ink (cs : Text) : Nat := cs.countP fun c => !(isSpace c || c == '\n')

@[simp] theorem ink_append (cs ds : Text) : ink (cs ++ ds) = ink cs + ink ds := by
  simp [ink]

theorem ink_significant_le (line : Nat) (cs : Text) :
    ink ((significant (scanFrom line cs)).flatMap Prod.snd) ≤ ink cs := by
  fun_induction scanFrom line cs with
  | case1 => exact Nat.le_refl _
  | case2 line c cs kind n h text ih =>
    have hcut : c :: cs = text ++ cs.drop n := by simp [text]
    rw [hcut, ink_append]
    cases hblank : isBlank ⟨kind, text, line⟩ with
    | true =>
      rw [significant_cons_of_isBlank hblank]
      omega
    | false =>
      rw [significant_cons_of_not_isBlank hblank, List.flatMap_cons, ink_append]
      exact Nat.add_le_add_left ih _

end Lexeme

open Lexeme

namespace Cursor

variable {file : Text}

/-! ## One lexeme -/

/-- What is written in front of a lexeme of `file` on the given line. -/
def lead (c : Cursor) (file : Text) (line : Nat) : List Piece :=
  if c.file = some file ∧ c.line = line then
    if c.pendingSpace && !c.atLineStart then [.space] else []
  else (if c.atLineStart then [] else [.lineFeed]) ++ [.marker line file]

theorem write_of_not_isBlank (c : Cursor) (file : Text) {t : Lexeme} (h : t.isBlank = false) :
    c.write file t = (c.lead file t.line ++ [.lexeme t], ⟨some file, t.line, false, false⟩) := by
  obtain ⟨h₁, h₂, h₃⟩ := isBlank_eq_false_iff.1 h
  have hwrite : c.write file t =
      let synced := c.synchronize file t.line
      (synced.1 ++ (if synced.2.pendingSpace && !synced.2.atLineStart then [.space] else []) ++
        [.lexeme t], { synced.2 with atLineStart := false, pendingSpace := false }) := by
    unfold write
    split <;> first | contradiction | rfl
  rw [hwrite, synchronize, lead]
  by_cases hsync : c.file = some file ∧ c.line = t.line
  · rw [if_pos hsync, if_pos hsync]
    simp [hsync.1, hsync.2]
  · rw [if_neg hsync, if_neg hsync]
    simp

/-- A lexeme that is not blank is written behind nothing, a space or a line feed. -/
theorem write_significant (c : Cursor) (file : Text) {t : Lexeme} (h : t.isBlank = false) :
    ∃ gap ∈ [[], [' '], ['\n']], unmarked (c.write file t).1 = gap ++ t.text ∧
      (c.file = some file → c.atLineStart = false →
        gap = if t.line ≠ c.line then ['\n'] else if c.pendingSpace then [' '] else []) ∧
      (c.write file t).2 = ⟨some file, t.line, false, false⟩ := by
  obtain ⟨file', line', start, pending⟩ := c
  rw [write_of_not_isBlank _ _ h, lead]
  by_cases hsync : file' = some file ∧ line' = t.line
  · obtain ⟨rfl, rfl⟩ := hsync
    rw [if_pos ⟨rfl, rfl⟩]
    refine ⟨if pending && !start then [' '] else [], ?_, ?_, ?_, rfl⟩
    · cases pending <;> cases start <;> simp
    · cases pending <;> cases start <;> simp [unmarked, Piece.isMarker, Piece.text]
    · intro _ hstart
      cases hstart
      simp
  · rw [if_neg hsync]
    refine ⟨if start then [] else ['\n'], ?_, ?_, ?_, rfl⟩
    · cases start <;> simp
    · cases start <;> simp [unmarked, Piece.isMarker, Piece.text]
    · intro hfile hstart
      cases hstart
      have : t.line ≠ line' := fun hline => hsync ⟨hfile, hline.symm⟩
      simp [this]

theorem writeAll_cons (c : Cursor) (file : Text) (t : Lexeme) (ts : List Lexeme) :
    c.writeAll file (t :: ts) =
      ((c.write file t).1 ++ ((c.write file t).2.writeAll file ts).1,
        ((c.write file t).2.writeAll file ts).2) := rfl

theorem write_newline (c : Cursor) (file : Text) {t : Lexeme} (h : t.kind = .newline) :
    c.write file t =
      if c.file.isSome then
        ([.lineFeed],
          { c with line := nextLine c.line, atLineStart := true, pendingSpace := false })
      else ([], c) := by
  simp only [write, h]

theorem write_blank (c : Cursor) (file : Text) {t : Lexeme}
    (h : t.kind = .space ∨ t.kind = .comment) :
    c.write file t = ([], { c with pendingSpace := true }) := by
  rcases h with h | h <;> simp only [write, h]

/-! ## All lexemes -/

theorem head?_unmarked_writeAll {file : Text} (c : Cursor) (hfile : c.file = some file)
    (hstart : c.atLineStart = false) {us : List Lexeme} (hus : ∀ u ∈ us, IsWhole u.kind u.text) :
    (unmarked (c.writeAll file us).1).head? = nextChar? c.line c.pendingSpace us := by
  induction us generalizing c with
  | nil => rfl
  | cons u us ih =>
    rw [List.forall_mem_cons] at hus
    rw [writeAll_cons, unmarked_append]
    cases hblank : u.isBlank with
    | true =>
      rcases kind_of_isBlank hblank with hkind | hkind
      · rw [write_newline c file hkind, nextChar?_newline hkind, hfile]
        rfl
      · rw [write_blank c file hkind, nextChar?_blank hkind]
        exact ih _ hfile hstart hus.2
    | false =>
      obtain ⟨gap, -, hwrite, hgap, -⟩ := c.write_significant file hblank
      rw [hwrite, nextChar?_significant hblank, hgap hfile hstart]
      obtain ⟨d, ds, htext⟩ := List.exists_cons_of_ne_nil (IsWhole.ne_nil hus.1)
      split
      · rfl
      · split
        · rfl
        · rw [htext]
          rfl

/-- The first character of a lexeme that is not blank is no white space. -/
theorem not_isSpace_of_isWhole {kind : LexemeKind} {c : Char} {cs : Text}
    (h : IsWhole kind (c :: cs)) (hkind : kind ≠ .space ∧ kind ≠ .newline ∧ kind ≠ .comment) :
    isSpace c = false ∧ c ≠ '\n' := by
  have hextent : extent c cs = (kind, cs.length) := h
  refine ⟨Bool.eq_false_iff.2 fun hspace => ?_, ?_⟩
  · rw [extent_of_isSpace hspace] at hextent
    exact hkind.1 (congrArg Prod.fst hextent).symm
  · rintro rfl
    exact hkind.2.1 (congrArg Prod.fst hextent).symm

theorem significant_scanFrom_gap {gap : Text} (hgap : gap ∈ [[], [' '], ['\n']]) {c : Char}
    (hc : isSpace c = false) (cs : Text) (line : Nat) :
    ∃ line', significant (scanFrom line (gap ++ c :: cs)) =
      significant (scanFrom line' (c :: cs)) := by
  simp only [List.mem_cons, List.not_mem_nil, or_false] at hgap
  rcases hgap with rfl | rfl | rfl
  · exact ⟨line, rfl⟩
  · refine ⟨line, ?_⟩
    have hone : (c :: cs).takeWhile isSpace = [] := by simp [hc]
    rw [List.cons_append, List.nil_append, scanFrom_cons, extent_of_isSpace (by decide), hone]
    exact significant_cons_of_isBlank rfl _
  · refine ⟨line + 1, ?_⟩
    rw [List.cons_append, List.nil_append, scanFrom_cons]
    exact significant_cons_of_isBlank rfl _

theorem ink_unmarked_writeAll (c : Cursor) (file : Text) (us : List Lexeme) :
    ink (unmarked (c.writeAll file us).1) = ink ((significant us).flatMap Prod.snd) := by
  induction us generalizing c with
  | nil => rfl
  | cons u us ih =>
    rw [writeAll_cons, unmarked_append, ink_append, ih]
    cases hblank : u.isBlank with
    | true =>
      rw [significant_cons_of_isBlank hblank]
      rcases kind_of_isBlank hblank with hkind | hkind
      · rw [write_newline c file hkind]
        split <;> exact Nat.zero_add _
      · rw [write_blank c file hkind]
        exact Nat.zero_add _
    | false =>
      obtain ⟨gap, hmem, hwrite, -, -⟩ := c.write_significant file hblank
      have hgap : ink gap = 0 := by
        simp only [List.mem_cons, List.not_mem_nil, or_false] at hmem
        rcases hmem with rfl | rfl | rfl <;> rfl
      rw [significant_cons_of_not_isBlank hblank, hwrite, ink_append, hgap, List.flatMap_cons,
        ink_append, Nat.zero_add]

/-- Where a lexeme runs on, something else is read back: a longer lexeme, or a
    comment that hides ink. -/
theorem significant_scanFrom_ne_of_runsInto {kind : LexemeKind} {text : Text}
    (h : IsWhole kind text) (hkind : kind ≠ .space ∧ kind ≠ .newline ∧ kind ≠ .comment)
    {rest : Text} (hruns : ¬∀ d ∈ rest.head?, runsInto kind text d = false)
    {read : List (LexemeKind × Text)} (hink : ink rest = ink (read.flatMap Prod.snd)) (line : Nat) :
    significant (scanFrom line (text ++ rest)) ≠ (kind, text) :: read := by
  intro heq
  cases text with
  | nil => exact h.elim
  | cons c cs =>
    obtain ⟨hspace, hfeed⟩ := not_isSpace_of_isWhole h hkind
    have hextent : extent c (cs ++ rest) ≠ (kind, cs.length) := fun hextent =>
      hruns ((extent_append_iff h hkind rest).1 hextent)
    have hle := (extent_take c (cs ++ rest)).1
    rw [List.cons_append, scanFrom_cons] at heq
    obtain ⟨k, n, hkn⟩ : ∃ k n, extent c (cs ++ rest) = (k, n) := ⟨_, _, rfl⟩
    rw [hkn] at heq hextent hle
    by_cases hcomment : k = .comment
    · subst hcomment
      rw [significant_cons_of_isBlank rfl] at heq
      have hdrop := ink_significant_le (line + (c :: (cs ++ rest).take n).count '\n')
        ((cs ++ rest).drop n)
      have hcut : ink (cs ++ rest) = ink ((cs ++ rest).take n) + ink ((cs ++ rest).drop n) := by
        rw [← ink_append, List.take_append_drop]
      have hslash : ink (c :: cs) = ink cs + 1 := by
        rw [eq_of_extent_comment hkn]
        simp [ink, isSpace, IdlFrontend.isBlank]
      rw [heq, List.flatMap_cons, ink_append, ← hink, hslash] at hdrop
      rw [ink_append] at hcut
      omega
    · have hblank : Lexeme.isBlank ⟨k, c :: (cs ++ rest).take n, line⟩ = false := by
        refine isBlank_eq_false_iff.2 ⟨?_, ?_, hcomment⟩
        · rintro rfl
          rw [isSpace_of_extent hkn] at hspace
          cases hspace
        · rintro rfl
          exact hfeed (eq_of_extent_newline hkn)
      rw [significant_cons_of_not_isBlank hblank] at heq
      obtain ⟨hk, htake⟩ := Prod.mk.inj (List.cons.inj heq).1
      have hlen := congrArg List.length (List.cons.inj htake).2
      rw [List.length_take_of_le hle] at hlen
      exact hextent (Prod.ext hk hlen)

/-- What was written is read back exactly if no lexeme runs on. -/
theorem significant_scanFrom_writeAll_iff (c : Cursor) {us : List Lexeme}
    (hus : ∀ u ∈ us, IsWhole u.kind u.text) (line : Nat) :
    significant (scanFrom line (unmarked (c.writeAll file us).1)) = significant us ↔
      Separated us := by
  induction us generalizing c line with
  | nil =>
    rw [writeAll, unmarked_nil, scanFrom]
    exact iff_of_true rfl trivial
  | cons u us ih =>
    rw [List.forall_mem_cons] at hus
    rw [writeAll_cons, unmarked_append, Separated]
    cases hblank : u.isBlank with
    | true =>
      have hruns : ∀ c ∈ nextChar? u.line false us, runsInto u.kind u.text c = false := by
        intro c _
        rcases kind_of_isBlank hblank with hkind | hkind | hkind <;> simp only [runsInto, hkind]
      rw [significant_cons_of_isBlank hblank, and_iff_right hruns]
      rcases kind_of_isBlank hblank with hkind | hkind
      · rw [write_newline c file hkind]
        split
        · show significant (scanFrom line ('\n' :: _)) = _ ↔ _
          rw [scanFrom_cons, significant_cons_of_isBlank rfl]
          exact ih _ hus.2 _
        · exact ih _ hus.2 _
      · rw [write_blank c file hkind]
        exact ih _ hus.2 _
    | false =>
      have hkind := isBlank_eq_false_iff.1 hblank
      obtain ⟨gap, hmem, hwrite, -, hcursor⟩ := c.write_significant file hblank
      rw [hwrite, hcursor, significant_cons_of_not_isBlank hblank]
      have hhead := head?_unmarked_writeAll ⟨some file, u.line, false, false⟩ rfl rfl hus.2
      have hink := ink_unmarked_writeAll ⟨some file, u.line, false, false⟩ file us
      rw [← hhead]
      obtain ⟨d, ds, htext⟩ := List.exists_cons_of_ne_nil (IsWhole.ne_nil hus.1)
      have hspace : isSpace d = false := (not_isSpace_of_isWhole (htext ▸ hus.1) hkind).1
      obtain ⟨line', hgap⟩ := significant_scanFrom_gap hmem hspace
        (ds ++ unmarked (writeAll ⟨some file, u.line, false, false⟩ file us).1) line
      rw [List.append_assoc, htext, List.cons_append, hgap, ← List.cons_append, ← htext]
      by_cases hruns :
        ∀ e ∈ (unmarked (writeAll ⟨some file, u.line, false, false⟩ file us).1).head?,
          runsInto u.kind u.text e = false
      · rw [scanFrom_append hus.1 hkind hruns,
          significant_cons_of_not_isBlank (t := ⟨u.kind, u.text, line'⟩) hblank,
            and_iff_right hruns, List.cons.injEq, and_iff_right rfl]
        exact ih _ hus.2 _
      · refine iff_of_false ?_ fun h => hruns h.1
        exact significant_scanFrom_ne_of_runsInto hus.1 hkind hruns hink line'

end Cursor

/-! ## Expansion -/

namespace MacroTable

/-- A table that definitions and removals lead to. -/
inductive Reachable : MacroTable → Prop
  | empty : Reachable {}
  | define {table table' : MacroTable} {args : List Lexeme} {line : Nat} :
    Reachable table → (∀ t ∈ args, IsWhole t.kind t.text) → table.define args line = .ok table' →
      Reachable table'
  | erase {table : MacroTable} (name : Text) : Reachable table → Reachable (table.erase name)

theorem Reachable.isWhole {table : MacroTable} (h : table.Reachable) :
    ∀ m ∈ table.macros, ∀ t ∈ m.body, IsWhole t.kind t.text := by
  induction h with
  | empty => exact List.forall_mem_nil _
  | define _ hargs hdefine ih => exact define_forall rfl ih hargs hdefine
  | erase name _ ih => exact fun m hm => ih m (List.mem_filter.1 hm).1

theorem Reachable.isWhole_expand {table : MacroTable} (h : table.Reachable) {ts us : List Lexeme}
    (hts : ∀ t ∈ ts, IsWhole t.kind t.text) (hus : table.expand ts = .ok us) :
    ∀ u ∈ us, IsWhole u.kind u.text := by
  have hadmits : Admits IsWhole fun _ => True := ⟨fun _ => isWhole_ofNat _, rfl, rfl⟩
  exact fun u hu => (expand_forall hadmits h.isWhole (fun t ht => ⟨hts t ht, trivial⟩) hus u hu).1

end MacroTable

/-- **Emitting keeps apart what does not run on.** For every macro table that
    definitions and removals lead to, and all lexemes that expand with it: the text
    that is written for the expansion, without its marker lines, is cut into the
    lexemes of the expansion, blanks aside, exactly if none of them runs on into the
    character that is written behind it. That character is a line feed where the next
    lexeme stands on another line or behind a line feed, a space where blanks stand
    between, and else the first character of the next lexeme. -/
theorem significant_scan_push_expand_iff {table : MacroTable} (htable : table.Reachable)
    {ts us : List Lexeme} (hts : ∀ t ∈ ts, IsWhole t.kind t.text) (hus : table.expand ts = .ok us)
    (file : Text) :
    significant (scan (unmarked (({} : MarkedText).push file us).pieces)) = significant us ↔
      Separated us :=
  Cursor.significant_scanFrom_writeAll_iff {} (htable.isWhole_expand hts hus) 1

/-- Two words on one line come back if a space stands between them. -/
theorem significant_scan_push_expand_iff_words :
    let ts : List Lexeme := [⟨.word, ['a'], 1⟩, .spaceAt 1, ⟨.word, ['b'], 1⟩]
    MacroTable.Reachable {} ∧ (∀ t ∈ ts, IsWhole t.kind t.text) ∧
    ({} : MacroTable).expand ts = .ok ts ∧
      significant (scan (unmarked (({} : MarkedText).push [] ts).pieces)) = significant ts := by
  intro ts
  have hts : ∀ t ∈ ts, IsWhole t.kind t.text := by decide
  have hexpand : ({} : MacroTable).expand ts = .ok ts := by
    refine MacroTable.expand_eq_self fun t ht _ => ⟨rfl, ?_⟩
    simp only [ts, List.mem_cons, List.not_mem_nil, or_false] at ht
    rcases ht with rfl | rfl | rfl <;> simp [spaceAt]
  refine ⟨.empty, hts, hexpand, (significant_scan_push_expand_iff .empty hts hexpand []).2 ?_⟩
  decide

/-- The last lexeme of a body and what follows the invocation may become one number. -/
theorem significant_scan_push_expand_joined :
    ∃ (table : MacroTable) (ts us : List Lexeme), table.Reachable ∧
      (∀ t ∈ ts, IsWhole t.kind t.text) ∧ table.expand ts = .ok us ∧
      significant (scan (unmarked (({} : MarkedText).push [] us).pieces)) ≠ significant us := by
  have hdefine : ({} : MacroTable).define (scan "X 1".toList) 1 =
      .ok ⟨[⟨['X'], .none, [⟨.number, ['1'], 1⟩]⟩]⟩ := by decide +kernel
  have hscan : scan "X.5".toList = [⟨.word, ['X'], 1⟩, ⟨.number, ['.', '5'], 1⟩] := by
    decide +kernel
  refine ⟨_, scan "X.5".toList, [⟨.number, ['1'], 1⟩, ⟨.number, ['.', '5'], 1⟩],
    .define .empty isWhole_of_mem_scan hdefine, isWhole_of_mem_scan, ?_, ?_⟩
  · rw [hscan]
    simp [MacroTable.expand, MacroTable.expandHiding, MacroTable.sweep, MacroTable.find?, restamp,
      Except.map]
  · decide +kernel

end IdlFrontend
