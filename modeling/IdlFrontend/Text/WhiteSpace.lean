import IdlFrontend.Text.Basic

/-!
# White space

The Unicode property `White_Space`. It decides where the ends of source lines
are trimmed, what separates the parts of a condition, and where the text quoted
in a message about an illegal token ends. The blanks inside a line of a lexer
(`isBlank`) are a smaller, ASCII class.

Results:

* `isWhiteSpace_of_isWhitespace`: the ASCII white space of the core library has
  the property.
-/

namespace IdlFrontend

/-- The code points with the property `White_Space`, as inclusive ranges in
    ascending order. -/
def whiteSpaceRanges : List (Nat × Nat) :=
  [(0x09, 0x0d), (0x20, 0x20), (0x85, 0x85), (0xa0, 0xa0), (0x1680, 0x1680), (0x2000, 0x200a),
    (0x2028, 0x2029), (0x202f, 0x202f), (0x205f, 0x205f), (0x3000, 0x3000)]

/-- Whether a character has the Unicode property `White_Space`. -/
def isWhiteSpace (c : Char) : Bool :=
  whiteSpaceRanges.any fun (lo, hi) => lo ≤ c.toNat && c.toNat ≤ hi

theorem isWhiteSpace_of_isWhitespace {c : Char} (h : c.isWhitespace) : isWhiteSpace c := by
  simp only [Char.isWhitespace, Bool.or_eq_true, decide_eq_true_eq] at h
  rcases h with ((rfl | rfl) | rfl) | rfl <;> decide

/-- Twenty-five code points have the property. -/
example : (whiteSpaceRanges.map fun (lo, hi) => hi + 1 - lo).sum = 25 := by decide

end IdlFrontend
