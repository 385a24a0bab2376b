import IdlFrontend.Text.Basic

/-!
# Trigraphs

Nine sequences of two question marks and a third character stand for characters
that some keyboards lack. They are replaced before anything else looks at the
source, leftmost first and without looking at the result again.

Results:

* `replaceTrigraphs_length_le`: the replacement never lengthens a text.
-/

namespace IdlFrontend.Source

/-- The character that a trigraph with the given third character stands for. Model of
    `TRIGRAPHS`. -/
def trigraph? : Char → Option Char
  | '=' => some '#'
  | '/' => some '\\'
  | '\'' => some '^'
  | '(' => some '['
  | ')' => some ']'
  | '!' => some '|'
  | '<' => some '\x7b'
  | '>' => some '\x7d'
  | '-' => some '~'
  | _ => none

/-- The text with every trigraph replaced by the character it stands for. Model of
    `replace_trigraphs`. -/
def replaceTrigraphs : Text → Text
  | '?' :: '?' :: c :: cs =>
    match trigraph? c with
    | some r => r :: replaceTrigraphs cs
    | none => '?' :: replaceTrigraphs ('?' :: c :: cs)
  | c :: cs => c :: replaceTrigraphs cs
  | [] => []

theorem replaceTrigraphs_length_le (cs : Text) : (replaceTrigraphs cs).length ≤ cs.length := by
  fun_induction replaceTrigraphs cs with
  | case1 c cs r _ ih => simp only [List.length_cons]; omega
  | case2 c cs _ ih => simpa using ih
  | case3 c cs _ ih => simpa using ih
  | case4 => simp

end IdlFrontend.Source
