import IdlFrontend.Proofs.Source.Tidy

/-!
# A place in a source text

What stands before a place of the source decides what stands before it in the logical
lines, as long as the place itself is not trimmed or spliced away. A space is trimmed if
nothing but white space follows it on its line.

Results:

* `replaceTrigraphs_append_cons`: trigraphs on the two sides of a character.
* `exists_joinContinuations_eq`: what stands at a place is joined to the line that is open there.
* `exists_joinContinuations`: the logical text on the two sides of a place.
-/

namespace IdlFrontend.Source

/-! ## Trigraphs -/

/-- A character that completes no trigraph and begins none keeps the two sides apart. -/
theorem replaceTrigraphs_append_cons {c : Char} (hc : c ≠ '?') {cs : Text}
    (h : trigraph? c = none ∨ ¬['?', '?'] <:+ cs) (ds : Text) :
    replaceTrigraphs (cs ++ c :: ds) = replaceTrigraphs cs ++ c :: replaceTrigraphs ds := by
  have hone (ds : Text) : replaceTrigraphs (c :: ds) = c :: replaceTrigraphs ds := by
    rw [replaceTrigraphs]
    intro _ _ heq
    exact absurd heq hc
  fun_induction replaceTrigraphs cs with
  | case1 d cs r hr ih =>
    have h' := h.imp id (mt fun hsuffix : ['?', '?'] <:+ cs =>
      hsuffix.trans ((List.suffix_cons d cs).trans
        ((List.suffix_cons '?' _).trans (List.suffix_cons '?' _))))
    rw [List.cons_append, List.cons_append, List.cons_append, replaceTrigraphs, hr, ih h']
    rfl
  | case2 d cs hnone ih =>
    have h' := h.imp id (mt fun hsuffix : ['?', '?'] <:+ '?' :: d :: cs =>
      hsuffix.trans (List.suffix_cons '?' _))
    have hih := ih h'
    rw [List.cons_append, List.cons_append] at hih
    rw [List.cons_append, List.cons_append, List.cons_append, replaceTrigraphs, hnone, hih]
    rfl
  | case3 e cs hnot ih =>
    have h' := h.imp id (mt fun hsuffix : ['?', '?'] <:+ cs => hsuffix.trans (List.suffix_cons e _))
    rw [List.cons_append, List.cons_append, ← ih h']
    -- Only two question marks right before the character could still begin a trigraph.
    by_cases htwo : e = '?' ∧ cs = ['?']
    · obtain ⟨rfl, rfl⟩ := htwo
      rcases h with h | h
      · show replaceTrigraphs ('?' :: '?' :: c :: ds) = '?' :: replaceTrigraphs ('?' :: c :: ds)
        rw [replaceTrigraphs, h]
      · exact absurd List.suffix_rfl h
    · rw [replaceTrigraphs]
      rintro d rest rfl heq
      cases cs with
      | nil => exact hc (List.cons.inj heq).1
      | cons f cs =>
        obtain ⟨rfl, heq⟩ := List.cons.inj heq
        cases cs with
        | nil => exact htwo ⟨rfl, rfl⟩
        | cons g cs => exact hnot g cs rfl rfl
  | case4 => exact hone ds

/-! ## Physical lines -/

theorem physicalLines_append {x : Text} (hne : x ≠ []) (hx : ∀ c ∈ x, isLineEnd c = false)
    (cs : Text) :
    Text.physicalLines (x ++ cs) =
      (x ++ cs.takeWhile fun c => !isLineEnd c) :: (Text.physicalLines cs).tail := by
  induction x with
  | nil => exact absurd rfl hne
  | cons c x ih =>
    rw [List.forall_mem_cons] at hx
    have hcr (rest : Text) : ∀ after, c = '\r' → rest = '\n' :: after → False := by
      rintro after rfl -
      exact absurd hx.1 (by decide)
    rw [List.cons_append, Text.physicalLines.eq_3 _ _ (hcr _), if_neg (by simp [hx.1])]
    cases x with
    | nil =>
      cases hlines : Text.physicalLines cs with
      | nil =>
        cases cs with
        | nil => rfl
        | cons d ds => exact absurd hlines (Text.physicalLines_ne_nil d ds)
      | cons line lines =>
        rw [List.nil_append, hlines, ← head_physicalLines hlines]
        rfl
    | cons d x =>
      rw [ih (List.cons_ne_nil _ _) hx.2]
      rfl

/-- Text before a place ends in an open line, on which the place is. -/
theorem exists_physicalLines (cs : Text) : ∃ lines opened, (∀ c ∈ opened, isLineEnd c = false) ∧
    ∀ ds, (∀ d ∈ ds.head?, isLineEnd d = false) →
      ∀ line rest, Text.physicalLines ds = line :: rest →
      Text.physicalLines (cs ++ ds) = lines ++ (opened ++ line) :: rest := by
  fun_induction Text.lineBreaks cs with
  | case1 => exact ⟨[], [], List.forall_mem_nil _, fun ds _ line rest h => h⟩
  | case2 cs ih =>
    obtain ⟨lines, opened, hopened, ih⟩ := ih
    refine ⟨[] :: lines, opened, hopened, fun ds hds line rest h => ?_⟩
    exact congrArg (List.cons []) (ih ds hds line rest h)
  | case3 c cs hcr hend ih =>
    obtain ⟨lines, opened, hopened, ih⟩ := ih
    refine ⟨[] :: lines, opened, hopened, fun ds hds line rest h => ?_⟩
    rw [List.cons_append, List.cons_append, ← ih ds hds line rest h, Text.physicalLines.eq_3,
      if_pos hend]
    intro after hc heq
    cases cs with
    | nil =>
      have := hds '\n' (by rw [List.nil_append] at heq; rw [heq]; rfl)
      cases this
    | cons d cs =>
      obtain ⟨rfl, -⟩ := List.cons.inj heq
      exact hcr cs hc rfl
  | case4 c cs hcr hend ih =>
    obtain ⟨lines, opened, hopened, ih⟩ := ih
    have hc : isLineEnd c = false := by simpa using hend
    have hreturn (rest : Text) : ∀ after, c = '\r' → rest = '\n' :: after → False := by
      rintro after rfl -
      exact absurd hc (by decide)
    cases lines with
    | nil =>
      refine ⟨[], c :: opened, List.forall_mem_cons.2 ⟨hc, hopened⟩, fun ds hds line rest h => ?_⟩
      rw [List.cons_append, Text.physicalLines.eq_3 _ _ (hreturn _), if_neg hend,
        ih ds hds line rest h]
      rfl
    | cons first lines =>
      refine ⟨(c :: first) :: lines, opened, hopened, fun ds hds line rest h => ?_⟩
      rw [List.cons_append, Text.physicalLines.eq_3 _ _ (hreturn _), if_neg hend,
        ih ds hds line rest h]
      rfl

/-! ## Splicing -/

theorem join_append (separator s part : Text) (parts : List Text) :
    Text.join separator ((s ++ part) :: parts) = s ++ Text.join separator (part :: parts) := by
  induction s with
  | nil => rfl
  | cons c s ih => rw [List.cons_append, join_cons, ih, List.cons_append]

theorem spliceOnto_ne_nil (current : Text) (absorbed : Nat) (lines : List Text) :
    spliceOnto current absorbed lines ≠ [] := by
  intro h
  have hlength := length_spliceOnto current absorbed lines
  rw [h] at hlength
  exact absurd hlength (Nat.succ_ne_zero _).symm

/-- Parts before others, joined. -/
theorem join_cons_append (separator part : Text) (parts : List Text) {more : List Text}
    (h : more ≠ []) :
    Text.join separator (part :: (parts ++ more)) =
      Text.join separator (part :: (parts ++ [[]])) ++ Text.join separator more := by
  induction parts generalizing part with
  | nil =>
    obtain ⟨next, more, rfl⟩ := List.exists_cons_of_ne_nil h
    rw [List.nil_append, List.nil_append, join_cons_cons, join_cons_cons]
    simp [Text.join]
  | cons next parts ih =>
    rw [List.cons_append, List.cons_append, join_cons_cons, join_cons_cons, ih, List.append_assoc,
      List.append_assoc]

/-- What stands on the lines before a place, and on its own logical line, when the next
    physical line is appended there. -/
theorem exists_join_spliceOnto (current : Text) (absorbed : Nat) (lines : List Text) :
    ∃ before start absorbed', ∀ line rest,
      Text.join ['\n'] (spliceOnto current absorbed (lines ++ line :: rest)) =
        before ++ Text.join ['\n'] (spliceOnto (start ++ line) absorbed' rest) := by
  induction lines generalizing current absorbed with
  | nil =>
    cases hcontinued : isContinued current with
    | true =>
      refine ⟨[], current.dropLast, absorbed + 1, fun line rest => ?_⟩
      rw [List.nil_append, spliceOnto, if_pos hcontinued, List.nil_append]
    | false =>
      refine ⟨Text.join ['\n'] (current :: (List.replicate absorbed [] ++ [[]])), [], 0,
        fun line rest => ?_⟩
      rw [List.nil_append, spliceOnto, hcontinued, if_neg Bool.false_ne_true, List.nil_append]
      exact join_cons_append _ _ _ (spliceOnto_ne_nil line 0 rest)
  | cons next lines ih =>
    cases hcontinued : isContinued current with
    | true =>
      obtain ⟨before, start, absorbed', h⟩ := ih (current.dropLast ++ next) (absorbed + 1)
      refine ⟨before, start, absorbed', fun line rest => ?_⟩
      rw [List.cons_append, spliceOnto, if_pos hcontinued, h]
    | false =>
      obtain ⟨before, start, absorbed', h⟩ := ih next 0
      refine ⟨Text.join ['\n'] (current :: (List.replicate absorbed [] ++ [[]])) ++ before, start,
        absorbed', fun line rest => ?_⟩
      rw [List.cons_append, spliceOnto, hcontinued, if_neg Bool.false_ne_true,
        join_cons_append _ _ _ (spliceOnto_ne_nil _ 0 _), h, List.append_assoc]

theorem exists_join_splice (lines : List Text) : ∃ before start absorbed, ∀ line rest,
    Text.join ['\n'] (splice (lines ++ line :: rest)) =
      before ++ Text.join ['\n'] (spliceOnto (start ++ line) absorbed rest) := by
  cases lines with
  | nil => exact ⟨[], [], 0, fun line rest => rfl⟩
  | cons first lines => exact exists_join_spliceOnto first 0 lines

theorem isContinued_append {start : Text} (h : isContinued start = false) (line : Text) :
    isContinued (start ++ line) = isContinued line := by
  cases line with
  | nil => rw [List.append_nil, h]; rfl
  | cons c cs =>
    rw [isContinued, isContinued, List.getLast?_append_of_ne_nil _ (List.cons_ne_nil c cs)]

/-- What follows a place does not depend on what stands there, unless that ends in a
    backslash. -/
theorem exists_join_spliceOnto_append (line : Text) (absorbed : Nat) (lines : List Text) :
    ∃ after, ∀ start, isContinued start = false →
      Text.join ['\n'] (spliceOnto (start ++ line) absorbed lines) = start ++ after := by
  induction lines generalizing line absorbed with
  | nil => exact ⟨_, fun start _ => join_append _ _ _ _⟩
  | cons next lines ih =>
    cases hcontinued : isContinued line with
    | true =>
      obtain ⟨after, h⟩ := ih (line.dropLast ++ next) (absorbed + 1)
      refine ⟨after, fun start hstart => ?_⟩
      have hne : line ≠ [] := by
        rintro rfl
        cases hcontinued
      rw [spliceOnto, isContinued_append hstart, if_pos hcontinued,
        List.dropLast_append_of_ne_nil hne, List.append_assoc, h start hstart]
    | false =>
      refine ⟨Text.join ['\n'] (line :: (List.replicate absorbed [] ++ spliceOnto next 0 lines)),
        fun start hstart => ?_⟩
      rw [spliceOnto, isContinued_append hstart, hcontinued, if_neg Bool.false_ne_true]
      exact join_append _ _ _ _

/-- Nothing, or a line feed, follows a place at which the line is empty. -/
theorem head?_join_spliceOnto_nil (absorbed : Nat) (lines : List Text) :
    ∀ c ∈ (Text.join ['\n'] (spliceOnto [] absorbed lines)).head?, c = '\n' := by
  have hhead (parts : List Text) : ∀ c ∈ (Text.join ['\n'] ([] :: parts)).head?, c = '\n' := by
    cases parts with
    | nil => exact fun _ h => by cases h
    | cons part parts =>
      rw [join_cons_cons]
      rintro c ⟨⟩
      rfl
  cases lines with
  | nil => exact hhead _
  | cons line lines => exact hhead _

theorem mem_join_replicate_nil {n : Nat} :
    ∀ c ∈ Text.join ['\n'] (List.replicate (n + 1) []), c = '\n' := by
  induction n with
  | zero => exact List.forall_mem_nil _
  | succ n ih =>
    rw [List.replicate_succ, List.replicate_succ, join_cons_cons, ← List.replicate_succ]
    exact List.forall_mem_cons.2 ⟨rfl, ih⟩

/-! ## A place -/

theorem trimEnd_append (p : Char → Bool) (cs ds : Text) :
    Text.trimEnd p (cs ++ ds) = if ds.all p then Text.trimEnd p cs else cs ++ Text.trimEnd
      p ds := by
  rw [Text.trimEnd, List.reverse_append, List.dropWhile_append]
  have hall : (ds.reverse.dropWhile p).isEmpty = ds.all p := by
    rw [Bool.eq_iff_iff, List.isEmpty_iff, ← trimEnd_eq_nil_iff, Text.trimEnd,
      List.reverse_eq_nil_iff]
  rw [hall]
  split
  · rfl
  · rw [List.reverse_append, List.reverse_reverse]
    rfl

/-- Text that stays as it is where it stands on a line: it is not trimmed, and a line that
    ends in it is not continued. -/
structure Stays (x : Text) : Prop where
  ne_nil : x ≠ []
  inline : ∀ c ∈ x, isLineEnd c = false
  last : ∀ c ∈ x.getLast?, isWhiteSpace c = false ∧ c ≠ '\\'

theorem Stays.isContinued_append {x : Text} (h : Stays x) (cs : Text) :
    isContinued (cs ++ x) = false := by
  rw [isContinued, List.getLast?_append_of_ne_nil _ h.ne_nil, beq_eq_false_iff_ne]
  exact fun hlast => (h.last '\\' hlast).2 rfl

theorem trimEnd_eq_self {x : Text} {p : Char → Bool} (h : ∀ c ∈ x.getLast?, p c = false) :
    Text.trimEnd p x = x := by
  refine List.rdropWhile_eq_self_iff.2 fun hx => ?_
  rw [h _ (List.getLast?_eq_some_getLast hx)]
  exact Bool.false_ne_true

theorem trimEnd_append_of_last {x : Text} {p : Char → Bool} (hne : x ≠ [])
    (h : ∀ c ∈ x.getLast?, p c = false) (cs ds : Text) :
    Text.trimEnd p (cs ++ (x ++ ds)) = cs ++ (x ++ Text.trimEnd p ds) := by
  have hself : Text.trimEnd p (cs ++ x) = cs ++ x :=
    trimEnd_eq_self (by rwa [List.getLast?_append_of_ne_nil _ hne])
  rw [← List.append_assoc, ← List.append_assoc, trimEnd_append, hself]
  split
  next hall => rw [trimEnd_eq_nil_iff.2 hall, List.append_nil]
  · rfl

/-- A space that only white space follows on its line is trimmed, and any other one stays. -/
theorem trimEnd_append_space (opened rest : Text) :
    Text.trimEnd isWhiteSpace (opened ++ ' ' :: rest) =
      if rest.all isWhiteSpace then Text.trimEnd isWhiteSpace opened
      else opened ++ ' ' :: Text.trimEnd isWhiteSpace rest := by
  have hspace : (' ' :: rest).all isWhiteSpace = rest.all isWhiteSpace := rfl
  rw [trimEnd_append, hspace, trimEnd_cons]
  cases rest.all isWhiteSpace <;> rfl

theorem endsInLineBreak_append {x : Text} (hne : x ≠ []) (hx : ∀ c ∈ x, isLineEnd c = false)
    (cs ds : Text) : (cs ++ (x ++ ds)).endsInLineBreak = ds.endsInLineBreak := by
  rw [Text.endsInLineBreak, Text.endsInLineBreak]
  cases ds with
  | nil =>
    rw [List.append_nil, List.getLast?_append_of_ne_nil _ hne, List.getLast?_eq_some_getLast hne]
    exact hx _ (List.getLast_mem hne)
  | cons d ds =>
    have hds : d :: ds ≠ [] := List.cons_ne_nil d ds
    rw [List.getLast?_append_of_ne_nil _ (List.append_ne_nil_of_right_ne_nil _ hds),
      List.getLast?_append_of_ne_nil _ hds]

/-- The line break at the end of a text. -/
def finalBreak (ds : Text) : Text := if ds.endsInLineBreak then ['\n'] else []

/-- What stands at a place is joined to the open line, with the rest of the line behind it. -/
theorem exists_joinContinuations_eq (cs : Text) :
    ∃ before start opened absorbed, (∀ c ∈ opened, isLineEnd c = false) ∧
      ∀ ds x, x ≠ [] → (∀ c ∈ x, isLineEnd c = false) →
        joinContinuations (cs ++ (x ++ ds)) = before ++ Text.join ['\n'] (spliceOnto
          (start ++ Text.trimEnd isWhiteSpace (opened ++ (x ++ ds.takeWhile fun c => !isLineEnd c)))
          absorbed ((Text.physicalLines ds).tail.map (Text.trimEnd isWhiteSpace))) ++
          finalBreak ds := by
  obtain ⟨lines, opened, hopened, hlines⟩ := exists_physicalLines cs
  obtain ⟨before, start, absorbed, hsplice⟩ :=
    exists_join_splice (lines.map (Text.trimEnd isWhiteSpace))
  refine ⟨before, start, opened, absorbed, hopened, fun ds x hne hx => ?_⟩
  have hhead : ∀ c ∈ (x ++ ds).head?, isLineEnd c = false := by
    obtain ⟨d, y, rfl⟩ := List.exists_cons_of_ne_nil hne
    rintro c ⟨⟩
    exact hx _ List.mem_cons_self
  rw [joinContinuations, hlines _ hhead _ _ (physicalLines_append hne hx ds), List.map_append,
    List.map_cons, hsplice, endsInLineBreak_append hne hx, finalBreak]

/-- Nothing, or a line feed, follows a place at which the last line is empty. -/
theorem head?_append_finalBreak {joined : Text} (h : ∀ c ∈ joined.head?, c = '\n') (ds : Text) :
    ∀ c ∈ (joined ++ finalBreak ds).head?, c = '\n' := by
  cases joined with
  | cons d joined => exact h
  | nil =>
    unfold finalBreak
    split
    · rintro c ⟨⟩
      rfl
    · exact fun _ h => by cases h

/-- The logical text on the two sides of a place, behind the text `cs`. The place is on
    the open line `opened`. -/
theorem exists_joinContinuations (cs : Text) :
    ∃ before opened, (∀ c ∈ opened, isLineEnd c = false) ∧ ∀ ds, ∃ after,
      (∀ x, Stays x → joinContinuations (cs ++ (x ++ ds)) = before ++ opened ++ (x ++ after)) ∧
      (endsLine ds = false →
        joinContinuations (cs ++ ' ' :: ds) = before ++ opened ++ ' ' :: after) ∧
      (endsLine ds → (∀ c ∈ after.head?, c = '\n') ∧
        ((before ++ Text.trimEnd isWhiteSpace opened).getLast? ≠ some '\\' →
          joinContinuations (cs ++ ' ' :: ds) =
            before ++ Text.trimEnd isWhiteSpace opened ++ after)) ∧
      (ds = [] → ∀ c ∈ after, c = '\n') := by
  obtain ⟨before, start, opened, absorbed, hopened, hjoin⟩ := exists_joinContinuations_eq cs
  refine ⟨before ++ start, opened, hopened, fun ds => ?_⟩
  let rest := ds.takeWhile fun c => !isLineEnd c
  let more := (Text.physicalLines ds).tail.map (Text.trimEnd isWhiteSpace)
  obtain ⟨after, hafter⟩ :=
    exists_join_spliceOnto_append (Text.trimEnd isWhiteSpace rest) absorbed more
  have hspace : joinContinuations (cs ++ ' ' :: ds) = _ :=
    hjoin ds [' '] (List.cons_ne_nil _ _) (List.forall_mem_singleton.2 (by decide))
  rw [List.singleton_append, trimEnd_append_space] at hspace
  have hempty := hafter [] rfl
  rw [List.nil_append, List.nil_append] at hempty
  refine ⟨after ++ finalBreak ds, fun x hx => ?_, fun hmore => ?_, fun hend => ⟨?_,
    fun hlast => ?_⟩, ?_⟩
  · rw [hjoin ds x hx.ne_nil hx.inline,
      trimEnd_append_of_last hx.ne_nil fun c hc => (hx.last c hc).1, ← List.append_assoc,
      ← List.append_assoc, hafter _ (hx.isContinued_append _)]
    simp only [List.append_assoc]
  · have hall : ¬rest.all isWhiteSpace := fun hall => Bool.false_ne_true (hmore.symm.trans hall)
    have hsplit (line : Text) : start ++ (opened ++ ' ' :: line) =
        start ++ opened ++ [' '] ++ line := by
      simp
    have hcontinued : isContinued (start ++ opened ++ [' ']) = false := by
      rw [isContinued, List.getLast?_append_of_ne_nil _ (List.cons_ne_nil _ _)]
      rfl
    rw [hspace, if_neg hall, hsplit, hafter _ hcontinued]
    simp
  · rw [trimEnd_eq_nil_iff.2 hend] at hempty
    rw [← hempty]
    exact head?_append_finalBreak (head?_join_spliceOnto_nil absorbed more) ds
  · have hcontinued : isContinued (start ++ Text.trimEnd isWhiteSpace opened) = false := by
      rw [isContinued, beq_eq_false_iff_ne]
      intro hbackslash
      refine hlast ?_
      rw [List.append_assoc, List.getLast?_append, hbackslash]
      rfl
    have hline := hafter _ hcontinued
    rw [trimEnd_eq_nil_iff.2 hend, List.append_nil] at hline
    have hall : rest.all isWhiteSpace := hend
    rw [hspace, if_pos hall, hline]
    simp only [List.append_assoc]
  · rintro rfl
    have hfeed : finalBreak [] = [] := rfl
    rw [hfeed, List.append_nil, ← hempty]
    exact mem_join_replicate_nil (n := absorbed)

end IdlFrontend.Source
