import IdlFrontend.Text.Basic

/-!
# Line breaks

A line ends in a carriage return followed by a line feed, in a lone carriage
return, or in a lone line feed; each of the three is one line break.

Results:

* `lineBreaks_le_length`: a text has no more line breaks than characters.
* `length_physicalLines`: the physical lines of a text are as many as its line
  breaks, and one more if characters stand behind the last of them.
-/

namespace IdlFrontend.Text

/-- The number of line breaks in a text. Model of `count_newlines`. -/
def lineBreaks : Text → Nat
  | [] => 0
  | '\r' :: '\n' :: cs => lineBreaks cs + 1
  | c :: cs => if isLineEnd c then lineBreaks cs + 1 else lineBreaks cs

/-- The lines of a text without their line breaks. A text that ends in a line break has no empty
    line behind it. Model of `physical_lines`. -/
def physicalLines : Text → List Text
  | [] => []
  | '\r' :: '\n' :: cs => [] :: physicalLines cs
  | c :: cs =>
    if isLineEnd c then [] :: physicalLines cs
    else match physicalLines cs with
      | [] => [[c]]
      | line :: lines => (c :: line) :: lines

/-- Whether the last character of a text belongs to a line break. -/
def endsInLineBreak (cs : Text) : Bool := cs.getLast?.any isLineEnd

theorem lineBreaks_le_length (cs : Text) : lineBreaks cs ≤ cs.length := by
  fun_induction lineBreaks cs with
  | case1 => simp
  | case2 cs ih => simp; omega
  | case3 c cs _ _ ih => simpa using ih
  | case4 c cs _ _ ih => simp; omega

@[simp] theorem endsInLineBreak_cons_cons (c d : Char) (cs : Text) :
    endsInLineBreak (c :: d :: cs) = endsInLineBreak (d :: cs) := by
  rw [endsInLineBreak, List.getLast?_cons_cons, endsInLineBreak]

theorem physicalLines_ne_nil (c : Char) (cs : Text) : physicalLines (c :: cs) ≠ [] := by
  rw [physicalLines.eq_def]
  split
  · contradiction
  · simp
  · split
    · simp
    · split <;> simp

theorem length_physicalLines (cs : Text) :
    (physicalLines cs).length = lineBreaks cs + if cs = [] ∨ endsInLineBreak cs then 0 else 1 := by
  fun_induction physicalLines cs with
  | case1 => rfl
  | case2 cs ih =>
    rw [List.length_cons, ih, lineBreaks]
    cases cs with
    | nil => decide
    | cons d ds =>
      rw [endsInLineBreak_cons_cons, endsInLineBreak_cons_cons]
      simp only [reduceCtorEq, false_or]
      omega
  | case3 c cs hcr hend ih =>
    rw [List.length_cons, ih, lineBreaks.eq_3 c cs hcr, if_pos hend]
    cases cs with
    | nil => simp [lineBreaks, endsInLineBreak, hend]
    | cons d ds =>
      rw [endsInLineBreak_cons_cons]
      simp only [reduceCtorEq, false_or]
      omega
  | case4 c cs hcr hend hnil ih =>
    rw [lineBreaks.eq_3 c cs hcr, if_neg hend]
    cases cs with
    | nil => simp [lineBreaks, endsInLineBreak, hend]
    | cons d ds => exact absurd hnil (physicalLines_ne_nil d ds)
  | case5 c cs hcr hend line lines hcons ih =>
    rw [lineBreaks.eq_3 c cs hcr, if_neg hend]
    cases cs with
    | nil => simp [physicalLines] at hcons
    | cons d ds =>
      rw [hcons] at ih
      rw [endsInLineBreak_cons_cons]
      simpa using ih

end IdlFrontend.Text
