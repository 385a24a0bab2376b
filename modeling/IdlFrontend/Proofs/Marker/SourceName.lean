import IdlFrontend.Proofs.Lexer.Marker
import Mathlib.Algebra.Group.Nat.Defs

/-!
# Source names in markers

A marker has the name of a file in quotes, in which control characters, backslashes and U+00FF
are written as escape sequences. A backslash in what is written always begins such a sequence,
and the sequences are told apart by their second character, so that a name is read back from the
left, also one that looks like an escape sequence, a quote or a directive itself.

Results:

* `readEscaped_escapeChar`: an escaped character is read back, whatever follows it.
* `escapeName_injective`: no two names are escaped alike.
* `marker_survives`: no name keeps the lexer from reading its marker as one.
-/

namespace IdlFrontend

/-! ## Reading escaped names -/

/-- The control character that has a letter of its own. -/
def shortEscape? : Char → Option Char
  | 'a' => some '\x07'
  | 'b' => some '\x08'
  | 'f' => some '\x0c'
  | 'n' => some '\n'
  | 'r' => some '\r'
  | 't' => some '\t'
  | 'v' => some '\x0b'
  | _ => none

/-- The first character of an escaped name, and the rest of it. -/
def readEscaped : Text → Option (Char × Text)
  | '\\' :: 'u' :: cs => (Text.ofDigits? 16 (cs.take 4)).map fun n => (Char.ofNat n, cs.drop 4)
  | '\\' :: c :: cs => (shortEscape? c).map fun d => (d, cs)
  | c :: cs => some (c, cs)
  | [] => none

theorem readEscaped_cons {c : Char} (hc : c ≠ '\\') (cs : Text) :
    readEscaped (c :: cs) = some (c, cs) := by
  unfold readEscaped
  split
  next heq =>
    cases heq
    exact absurd rfl hc
  next heq =>
    cases heq
    exact absurd rfl hc
  next heq =>
    cases heq
    rfl
  next heq => cases heq

/-- The code of a character below 256 has four digits, and they denote it. -/
theorem readEscaped_escapeByCode {c : Char} (hc : c.toNat < 256) (cs : Text) :
    readEscaped (escapeByCode c ++ cs) = some (c, cs) := by
  have hcodes : ∀ n < 256, (List.leftpad 4 '0' (Nat.toDigits 16 n)).length = 4 ∧
      Text.ofDigits? 16 (List.leftpad 4 '0' (Nat.toDigits 16 n)) = some n := by decide +kernel
  obtain ⟨hlength, hcode⟩ := hcodes c.toNat hc
  rw [escapeByCode, List.cons_append, List.cons_append, readEscaped, List.take_left' hlength,
    List.drop_left' hlength, hcode, Option.map_some, Char.ofNat_toNat]

/-- An escaped character is read back, whatever follows it. -/
theorem readEscaped_escapeChar (c : Char) (cs : Text) :
    readEscaped (escapeChar c ++ cs) = some (c, cs) := by
  unfold escapeChar
  split
  case h_8 =>
    split
    next hescaped =>
      refine readEscaped_escapeByCode ?_ cs
      simp only [Bool.or_eq_true, decide_eq_true_eq, beq_iff_eq] at hescaped
      rcases hescaped with (hcontrol | rfl) | rfl
      · omega
      · decide
      · decide
    next hplain =>
      refine readEscaped_cons ?_ cs
      rintro rfl
      exact hplain rfl
  all_goals rfl

theorem readEscaped_escapeName_cons (c : Char) (cs : Text) :
    readEscaped (escapeName (c :: cs)) = some (c, escapeName cs) :=
  readEscaped_escapeChar c (escapeName cs)

/-- No two names are escaped alike: they are read back character by character. -/
theorem escapeName_injective : Function.Injective escapeName := by
  intro name
  induction name with
  | nil =>
    intro other h
    cases other with
    | nil => rfl
    | cons d ds =>
      have hread := congrArg readEscaped h
      rw [readEscaped_escapeName_cons] at hread
      cases hread
  | cons c cs ih =>
    intro other h
    have hread := congrArg readEscaped h
    rw [readEscaped_escapeName_cons] at hread
    cases other with
    | nil => cases hread
    | cons d ds =>
      rw [readEscaped_escapeName_cons] at hread
      obtain ⟨rfl, hrest⟩ := Prod.mk.inj (Option.some.inj hread)
      rw [ih hrest]

/-! ## Markers -/

/-- **Source names survive in markers.** Escaping is injective and leaves no control character.
    A lexer in a mode for declarations that stands before a marker at the start of a line reads
    the marker and nothing else in one step, whatever the name is and whatever follows. The step
    makes no token, and the lexer goes on with the line that the marker was written for. -/
theorem marker_survives :
    Function.Injective escapeName ∧ (∀ name, ∀ c ∈ escapeName name, 0x20 ≤ c.toNat) ∧
      ∀ (name : Text) (line : Nat) (rest : Text) (l : Lexer), line < 2 ^ 64 →
        l.mode ∈ [Mode.ordinary, .properties, .native] → l.atLineStart →
        l.rest = marker line name ++ rest →
        l.step? = some {
          text := marker line name
          rule := ⟨.lineMarker, .lineMarker, .stay⟩
          token? := none
          next := { l with rest, atLineStart := true, line := .ofNat line } } := by
  refine ⟨escapeName_injective, fun name c => le_toNat_of_mem_escapeName, ?_⟩
  intro name line rest l hline hmode hstart hrest
  have hmode : l.mode ≠ .nativeType ∧ l.mode ≠ .fragment := by
    constructor <;> intro heq <;> rw [heq] at hmode <;> exact absurd hmode (by decide)
  rw [Lexer.step?_marker hmode hstart hrest, Lexer.read_marker hrest hline]

/-- A name with a quote, an escape sequence and a marker in it, on the last line that there is. -/
theorem marker_survives_marker :
    let name : Text := "\"\\u005c\n# 1 \"".toList
    let l : Lexer :=
      { dialect := .omg
        rest := marker 18446744073709551615 name ++ ['\n']
        mode := .native
        line := 7 }
    marker 18446744073709551615 name =
      "# 18446744073709551615 \"\"\\u005cu005c\\n# 1 \"\"\n".toList ∧
      l.mode ∈ [Mode.ordinary, .properties, .native] ∧ l.atLineStart ∧
      l.step? = some {
        text := marker 18446744073709551615 name
        rule := ⟨.lineMarker, .lineMarker, .stay⟩
        token? := none
        next := { l with rest := ['\n'], atLineStart := true, line := 18446744073709551615 } } := by
  intro name l
  exact ⟨by decide, by decide, rfl, marker_survives.2.2 name _ _ l (by decide) (by decide) rfl rfl⟩

end IdlFrontend
