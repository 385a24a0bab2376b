import IdlFrontend.Proofs.Macro.Define
import IdlFrontend.Proofs.Lexeme.Whole

/-!
# Lexemes without the space between them

Whether lexemes stand apart is all that space and comments say inside a line. In
condensed lexemes one space stands for a run of them, and nothing stands for a run
at the end of a line. Lexemes are alike if they are the same when condensed.

Results:

* `condense_append`: condensing parts first makes no difference.
* `stripBlank_condense`: blanks at the ends may be dropped before or after.
-/

namespace IdlFrontend.Lexeme

/-- Space and comments keep lexemes of a line apart. -/
def isGap (t : Lexeme) : Bool := t.kind == .space || t.kind == .comment

/-- Lexemes with a gap in front of them: it is one space, or nothing if the line ends. -/
def behindGap : List Lexeme → List Lexeme
  | [] => [spaceAt 0]
  | t :: ts => if t.kind = .space ∨ t.kind = .newline then t :: ts else spaceAt 0 :: t :: ts

/-- The lexemes with one space for each gap, and none for a gap at the end of a line. -/
def condense : List Lexeme → List Lexeme
  | [] => []
  | t :: ts => if t.isGap then behindGap (condense ts) else t :: condense ts

variable {t : Lexeme} {ts us : List Lexeme}

/-! ## Gaps -/

theorem isGap_iff : t.isGap ↔ t.kind = .space ∨ t.kind = .comment := by
  rw [isGap, Bool.or_eq_true, beq_iff_eq, beq_iff_eq]

theorem isGap_of_space (h : t.kind = .space) : t.isGap := isGap_iff.2 (Or.inl h)

theorem isGap_of_newline (h : t.kind = .newline) : t.isGap = false := by
  rw [isGap, h]
  rfl

theorem isBlank_of_isGap (h : t.isGap) : t.isBlank := by
  rcases isGap_iff.1 h with h | h <;> rw [isBlank, h] <;> rfl

theorem isBlank_of_newline (h : t.kind = .newline) : t.isBlank := by
  rw [isBlank, h]
  rfl

theorem isGap_of_not_isBlank (h : t.isBlank = false) : t.isGap = false :=
  Bool.eq_false_iff.2 fun hgap => by rw [isBlank_of_isGap hgap] at h; cases h

theorem isGap_spaceAt (line : Nat) : (spaceAt line).isGap := rfl

/-- A list is empty, begins with a space or a line feed, or with something else. -/
theorem behindGap_cases (ts : List Lexeme) :
    (∃ u us, ts = u :: us ∧ (u.kind = .space ∨ u.kind = .newline) ∧ behindGap ts = ts) ∨
      behindGap ts = spaceAt 0 :: ts := by
  cases ts with
  | nil => exact Or.inr rfl
  | cons u us =>
    by_cases hu : u.kind = .space ∨ u.kind = .newline
    · exact Or.inl ⟨u, us, rfl, hu, if_pos hu⟩
    · exact Or.inr (if_neg hu)

theorem condense_cons_gap (h : t.isGap) (ts : List Lexeme) :
    condense (t :: ts) = behindGap (condense ts) := if_pos h

theorem condense_cons (h : t.isGap = false) (ts : List Lexeme) :
    condense (t :: ts) = t :: condense ts := if_neg (Bool.eq_false_iff.1 h)

theorem behindGap_space (h : t.kind = .space) (ts : List Lexeme) :
    behindGap (t :: ts) = t :: ts := if_pos (Or.inl h)

theorem behindGap_newline (h : t.kind = .newline) (ts : List Lexeme) :
    behindGap (t :: ts) = t :: ts := if_pos (Or.inr h)

@[simp] theorem behindGap_behindGap (ts : List Lexeme) :
    behindGap (behindGap ts) = behindGap ts := by
  rcases behindGap_cases ts with ⟨-, -, -, -, h⟩ | h
  · rw [h, h]
  · rw [h, behindGap_space rfl]

/-- Condensed, a gap in front of lexemes is as good as any other. -/
theorem condense_behindGap (ts : List Lexeme) :
    condense (behindGap ts) = behindGap (condense ts) := by
  rcases behindGap_cases ts with ⟨u, us, rfl, hu, h⟩ | h
  · rw [h]
    rcases hu with hu | hu
    · rw [condense_cons_gap (isGap_of_space hu), behindGap_behindGap]
    · rw [condense_cons (isGap_of_newline hu), behindGap_newline hu]
  · rw [h, condense_cons_gap (isGap_spaceAt 0)]

@[simp] theorem condense_condense (ts : List Lexeme) : condense (condense ts) = condense ts := by
  induction ts with
  | nil => rfl
  | cons t ts ih =>
    cases ht : t.isGap with
    | true => rw [condense_cons_gap ht, condense_behindGap, ih]
    | false => rw [condense_cons ht, condense_cons ht, ih]

theorem length_behindGap_le (ts : List Lexeme) : (behindGap ts).length ≤ ts.length + 1 := by
  rcases behindGap_cases ts with ⟨-, -, -, -, h⟩ | h
  · rw [h]
    exact Nat.le_succ _
  · rw [h]
    exact Nat.le_refl _

theorem length_condense_le (ts : List Lexeme) : (condense ts).length ≤ ts.length := by
  induction ts with
  | nil => exact Nat.le_refl _
  | cons t ts ih =>
    cases ht : t.isGap with
    | true =>
      rw [condense_cons_gap ht]
      exact (length_behindGap_le _).trans (Nat.succ_le_succ ih)
    | false =>
      rw [condense_cons ht]
      exact Nat.succ_le_succ ih

/-! ## Parts of lists -/

theorem condense_condense_append (ts us : List Lexeme) :
    condense (condense ts ++ us) = condense (ts ++ us) := by
  induction ts with
  | nil => rfl
  | cons t ts ih =>
    cases ht : t.isGap with
    | false =>
      rw [condense_cons ht, List.cons_append, List.cons_append, condense_cons ht, ih,
        condense_cons ht]
    | true =>
      rw [condense_cons_gap ht, List.cons_append, condense_cons_gap ht, ← ih]
      rcases behindGap_cases (condense ts) with ⟨u, vs, hts, hu, h⟩ | h
      · rw [h, hts, List.cons_append]
        rcases hu with hu | hu
        · rw [condense_cons_gap (isGap_of_space hu), behindGap_behindGap]
        · rw [condense_cons (isGap_of_newline hu), behindGap_newline hu]
      · rw [h, List.cons_append, condense_cons_gap (isGap_spaceAt 0)]

theorem condense_append_condense (ts us : List Lexeme) :
    condense (ts ++ condense us) = condense (ts ++ us) := by
  induction ts with
  | nil => exact condense_condense us
  | cons t ts ih => rw [List.cons_append, List.cons_append, condense, ih, condense]

/-- Parts of lists may be replaced by others that are alike. -/
theorem condense_append {ts' us' : List Lexeme} (hts : condense ts = condense ts')
    (hus : condense us = condense us') : condense (ts ++ us) = condense (ts' ++ us') := by
  rw [← condense_condense_append, hts, condense_condense_append, ← condense_append_condense, hus,
    condense_append_condense]

/-- What is done to each lexeme and keeps its kind keeps lists alike. -/
theorem condense_map {f : Lexeme → Lexeme} (hf : ∀ t, (f t).kind = t.kind)
    (h : condense ts = condense us) : condense (ts.map f) = condense (us.map f) := by
  have hgap (t : Lexeme) : (f t).isGap = t.isGap := by rw [isGap, hf, isGap]
  have hbehind (ts : List Lexeme) :
      condense ((behindGap ts).map f) = behindGap (condense (ts.map f)) := by
    rcases behindGap_cases ts with ⟨u, us, rfl, hu, h⟩ | h
    · rw [h, List.map_cons]
      rcases hu with hu | hu
      · rw [condense_cons_gap (by rw [hgap]; exact isGap_of_space hu), behindGap_behindGap]
      · rw [condense_cons (by rw [hgap]; exact isGap_of_newline hu),
          behindGap_newline ((hf u).trans hu)]
    · rw [h, List.map_cons, condense_cons_gap (by rw [hgap]; exact isGap_spaceAt 0)]
  have hcondense (ts : List Lexeme) : condense ((condense ts).map f) = condense (ts.map f) := by
    induction ts with
    | nil => rfl
    | cons t ts ih =>
      cases ht : t.isGap with
      | true =>
        rw [condense_cons_gap ht, hbehind, ih, List.map_cons,
          condense_cons_gap ((hgap t).trans ht)]
      | false =>
        rw [condense_cons ht, List.map_cons, List.map_cons, condense_cons ((hgap t).trans ht), ih,
          condense_cons ((hgap t).trans ht)]
  rw [← hcondense, h, hcondense]

theorem condense_restamp (line : Nat) (h : condense ts = condense us) :
    condense (restamp line ts) = condense (restamp line us) :=
  condense_map (fun _ => rfl) h

/-! ## Runs of gaps -/

theorem isGap_of_mem_space {ts : List Lexeme} (h : ∀ t ∈ ts, t.kind = .space) : ∀ t ∈ ts, t.isGap :=
  fun t ht => isGap_of_space (h t ht)

theorem condense_of_isGap {gs : List Lexeme} (hne : gs ≠ []) (h : ∀ t ∈ gs, t.isGap) :
    condense gs = [spaceAt 0] := by
  induction gs with
  | nil => exact absurd rfl hne
  | cons t gs ih =>
    rw [List.forall_mem_cons] at h
    rw [condense_cons_gap h.1]
    cases gs with
    | nil => rfl
    | cons u gs => rw [ih (List.cons_ne_nil u gs) h.2]; rfl

theorem condense_gap_newline {gs us : List Lexeme} (h : ∀ t ∈ gs, t.isGap)
    (hus : ∃ n rest, us = n :: rest ∧ n.kind = .newline) : condense (gs ++ us) = condense us := by
  induction gs with
  | nil => rfl
  | cons t gs ih =>
    rw [List.forall_mem_cons] at h
    obtain ⟨n, rest, rfl, hn⟩ := hus
    rw [List.cons_append, condense_cons_gap h.1, ih h.2, condense_cons (isGap_of_newline hn),
      behindGap_newline hn]

/-! ## Lexemes that are not blank -/

theorem filter_condense (ts : List Lexeme) :
    (condense ts).filter (!·.isBlank) = ts.filter (!·.isBlank) := by
  induction ts with
  | nil => rfl
  | cons t ts ih =>
    cases ht : t.isGap with
    | false => rw [condense_cons ht, List.filter_cons, List.filter_cons, ih]
    | true =>
      rw [condense_cons_gap ht, List.filter_cons_of_neg (by simp [isBlank_of_isGap ht]), ← ih]
      rcases behindGap_cases (condense ts) with ⟨-, -, -, -, h⟩ | h
      · rw [h]
      · rw [h]
        rfl

theorem condense_eq_nil_iff : condense ts = [] ↔ ts = [] := by
  cases ts with
  | nil => exact iff_of_true rfl rfl
  | cons t ts =>
    refine iff_of_false ?_ (List.cons_ne_nil _ _)
    cases ht : t.isGap with
    | false =>
      rw [condense_cons ht]
      exact List.cons_ne_nil _ _
    | true =>
      rw [condense_cons_gap ht]
      rcases behindGap_cases (condense ts) with ⟨u, us, hts, -, h⟩ | h
      · rw [h, hts]
        exact List.cons_ne_nil _ _
      · rw [h]
        exact List.cons_ne_nil _ _

theorem dropWhile_isBlank_condense (ts : List Lexeme) :
    (condense ts).dropWhile isBlank = condense (ts.dropWhile isBlank) := by
  induction ts with
  | nil => rfl
  | cons t ts ih =>
    cases hblank : t.isBlank with
    | false =>
      have ht := isGap_of_not_isBlank hblank
      rw [condense_cons ht, List.dropWhile_cons_of_neg (by simp [hblank]),
        List.dropWhile_cons_of_neg (by simp [hblank]), condense_cons ht]
    | true =>
      rw [List.dropWhile_cons_of_pos hblank, ← ih]
      cases ht : t.isGap with
      | false => rw [condense_cons ht, List.dropWhile_cons_of_pos hblank]
      | true =>
        rw [condense_cons_gap ht]
        rcases behindGap_cases (condense ts) with ⟨-, -, -, -, h⟩ | h
        · rw [h]
        · rw [h, List.dropWhile_cons_of_pos rfl]

theorem isBlank_of_mem_condense (h : ∀ t ∈ ts, t.isBlank) : ∀ t ∈ condense ts, t.isBlank := by
  have hnone : ts.filter (!·.isBlank) = [] := List.filter_eq_nil_iff.2 fun t ht => by simp [h t ht]
  rw [← filter_condense, List.filter_eq_nil_iff] at hnone
  exact fun t ht => by simpa using hnone t ht

theorem rdropWhile_isBlank_cons_of_ne_nil (h : ts.rdropWhile isBlank ≠ []) :
    (t :: ts).rdropWhile isBlank = t :: ts.rdropWhile isBlank := by
  have hne : (ts.reverse.dropWhile isBlank).isEmpty = false := by
    rw [List.isEmpty_eq_false_iff]
    exact fun hnil => h (List.reverse_eq_nil_iff.2 hnil)
  rw [List.rdropWhile, List.reverse_cons, List.dropWhile_append, hne, List.rdropWhile]
  simp

theorem rdropWhile_isBlank_condense (ts : List Lexeme) :
    (condense ts).rdropWhile isBlank = condense (ts.rdropWhile isBlank) := by
  induction ts with
  | nil => rfl
  | cons t ts ih =>
    by_cases hall : ∀ u ∈ t :: ts, u.isBlank
    · rw [List.rdropWhile_eq_nil_iff.2 hall]
      exact List.rdropWhile_eq_nil_iff.2 (isBlank_of_mem_condense hall)
    cases hblank : t.isBlank with
    | false =>
      have ht := isGap_of_not_isBlank hblank
      rw [condense_cons ht, rdropWhile_isBlank_cons hblank, rdropWhile_isBlank_cons hblank, ih,
        condense_cons ht]
    | true =>
      have hrest : ts.rdropWhile isBlank ≠ [] := fun hnil =>
        hall (List.forall_mem_cons.2 ⟨hblank, List.rdropWhile_eq_nil_iff.1 hnil⟩)
      have hcondensed : (condense ts).rdropWhile isBlank ≠ [] := by
        rw [ih]
        exact mt condense_eq_nil_iff.1 hrest
      rw [rdropWhile_isBlank_cons_of_ne_nil hrest]
      cases ht : t.isGap with
      | false =>
        rw [condense_cons ht, condense_cons ht, rdropWhile_isBlank_cons_of_ne_nil hcondensed, ih]
      | true =>
        rw [condense_cons_gap ht, condense_cons_gap ht, ← ih]
        -- The first lexeme is still there, and it decides what the gap becomes.
        obtain ⟨v, vs, hvs⟩ := List.exists_cons_of_ne_nil hcondensed
        obtain ⟨ws, hws⟩ := List.rdropWhile_prefix isBlank (l := condense ts)
        rw [hvs, List.cons_append] at hws
        rw [hvs, ← hws, behindGap, behindGap]
        split
        · rw [hws, hvs]
        · rw [rdropWhile_isBlank_cons_of_ne_nil (by rw [hws]; exact hcondensed), hws, hvs]

theorem stripBlank_condense (ts : List Lexeme) :
    stripBlank (condense ts) = condense (stripBlank ts) := by
  show ((condense ts).dropWhile isBlank).rdropWhile isBlank =
    condense ((ts.dropWhile isBlank).rdropWhile isBlank)
  rw [dropWhile_isBlank_condense, rdropWhile_isBlank_condense]

end IdlFrontend.Lexeme
