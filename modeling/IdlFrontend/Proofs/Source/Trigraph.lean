import IdlFrontend.Proofs.Source.Tidy

/-!
# The replacement of trigraphs

The trigraphs of a text are replaced from the left, and no character belongs to two of them.
What is written in the place of a trigraph is neither a question mark nor the end of a
trigraph, so no trigraph is left in the result, however many question marks stood in a row.

Results:

* `exists_of_replaceTrigraphs_eq_cons`: which characters of the result have been there before.
* `replaceTrigraphs_cons`: a character at which no trigraph begins stays.
* `replaced_replaceTrigraphs_iff`: the result has no trigraph, is its own result, and is the
  leftmost replacement.
-/

namespace IdlFrontend.Source

variable {c : Char} {cs out : Text} {t : Text × Char} {n : Nat}

/-! ## The nine trigraphs -/

/-- The trigraphs, each with the character that it stands for. -/
def trigraphs : List (Text × Char) :=
  [("??=".toList, '#'), ("??/".toList, '\\'), ("??'".toList, '^'), ("??(".toList, '['),
    ("??)".toList, ']'), ("??!".toList, '|'), ("??<".toList, '\x7b'), ("??>".toList, '\x7d'),
    ("??-".toList, '~')]

/-- A trigraph begins behind `n` characters of the text. -/
def TrigraphAt (cs : Text) (n : Nat) : Prop := ∃ t ∈ trigraphs, t.1 <+: cs.drop n

/-- A text and the text in which its trigraphs are replaced, the leftmost first: what stands
    before the first trigraph stays as it is, and the text behind the trigraph is dealt with
    in the same way. -/
inductive Replaced : Text → Text → Prop
  | none {cs : Text} (h : ∀ n, ¬TrigraphAt cs n) : Replaced cs cs
  | first {before after out : Text} {t : Text × Char} (ht : t ∈ trigraphs)
      (h : ∀ n < before.length, ¬TrigraphAt (before ++ (t.1 ++ after)) n)
      (hafter : Replaced after out) : Replaced (before ++ (t.1 ++ after)) (before ++ t.2 :: out)

theorem mem_trigraphs_iff :
    t ∈ trigraphs ↔ ∃ c r, trigraph? c = some r ∧ t = (['?', '?', c], r) := by
  constructor
  · have hall : ∀ t ∈ trigraphs, t.1 = ['?', '?', t.1.getLast?.getD 'x'] ∧
        trigraph? (t.1.getLast?.getD 'x') = some t.2 := by decide
    intro ht
    obtain ⟨htext, hr⟩ := hall t ht
    exact ⟨_, _, hr, Prod.ext htext rfl⟩
  · rintro ⟨c, r, hr, rfl⟩
    unfold trigraph? at hr
    split at hr <;> cases hr <;> decide

/-- What a trigraph stands for is no question mark, and ends no trigraph. -/
theorem trigraph?_trigraph? {d r : Char} (h : trigraph? d = some r) :
    r ≠ '?' ∧ trigraph? r = none := by
  unfold trigraph? at h
  split at h <;> cases h <;> decide

theorem trigraphAt_zero_iff : TrigraphAt cs 0 ↔
    ∃ c r rest, trigraph? c = some r ∧ cs = '?' :: '?' :: c :: rest := by
  constructor
  · rintro ⟨t, ht, rest, hrest⟩
    obtain ⟨c, r, hr, rfl⟩ := mem_trigraphs_iff.1 ht
    exact ⟨c, r, rest, hr, hrest.symm⟩
  · rintro ⟨c, r, rest, hr, rfl⟩
    exact ⟨_, mem_trigraphs_iff.2 ⟨c, r, hr, rfl⟩, rest, rfl⟩

theorem trigraphAt_of_isInfix (ht : t ∈ trigraphs) (h : t.1 <:+: cs) : ∃ n, TrigraphAt cs n := by
  obtain ⟨before, after, rfl⟩ := h
  refine ⟨before.length, t, ht, after, ?_⟩
  rw [List.append_assoc, List.drop_left]

/-! ## What stays -/

/-- A character at which no trigraph begins stays. -/
theorem replaceTrigraphs_cons (h : ¬TrigraphAt (c :: cs) 0) :
    replaceTrigraphs (c :: cs) = c :: replaceTrigraphs cs := by
  rw [replaceTrigraphs.eq_def]
  split
  next d rest heq =>
    cases heq
    cases hr : trigraph? d with
    | none => rfl
    | some r => exact absurd (trigraphAt_zero_iff.2 ⟨d, r, rest, hr, rfl⟩) h
  next heq =>
    cases heq
    rfl
  next heq => cases heq

theorem replaceTrigraphs_trigraph (ht : t ∈ trigraphs) (after : Text) :
    replaceTrigraphs (t.1 ++ after) = t.2 :: replaceTrigraphs after := by
  obtain ⟨c, r, hr, rfl⟩ := mem_trigraphs_iff.1 ht
  show replaceTrigraphs ('?' :: '?' :: c :: after) = _
  rw [replaceTrigraphs, hr]

theorem replaceTrigraphs_append (before : Text) {rest : Text}
    (h : ∀ n < before.length, ¬TrigraphAt (before ++ rest) n) :
    replaceTrigraphs (before ++ rest) = before ++ replaceTrigraphs rest := by
  induction before with
  | nil => rfl
  | cons c before ih =>
    have hnext : ∀ n < before.length, ¬TrigraphAt (before ++ rest) n := fun n hn =>
      h (n + 1) (Nat.succ_lt_succ hn)
    have hfirst : ¬TrigraphAt (c :: (before ++ rest)) 0 := h 0 (Nat.zero_lt_succ _)
    rw [List.cons_append, replaceTrigraphs_cons hfirst, ih hnext, List.cons_append]

/-- A character that no trigraph stands for has been there before. -/
theorem exists_of_replaceTrigraphs_eq_cons {w : Text} (h : replaceTrigraphs cs = c :: w)
    (hc : ∀ d, trigraph? d ≠ some c) : ∃ rest, cs = c :: rest ∧ replaceTrigraphs rest = w := by
  fun_cases replaceTrigraphs cs with
  | case1 d rest r hr =>
    rw [replaceTrigraphs, hr] at h
    cases h
    exact absurd hr (hc d)
  | case2 d rest hr =>
    rw [replaceTrigraphs, hr] at h
    cases h
    exact ⟨_, rfl, rfl⟩
  | case3 d rest hnot =>
    rw [replaceTrigraphs] at h
    · cases h
      exact ⟨_, rfl, rfl⟩
    · exact hnot
  | case4 => cases h

theorem isPrefix_of_replaceTrigraphs {w : Text} (hw : ∀ c ∈ w, ∀ d, trigraph? d ≠ some c)
    (h : w <+: replaceTrigraphs cs) : w <+: cs := by
  induction w generalizing cs with
  | nil => exact List.nil_prefix
  | cons c w ih =>
    rw [List.forall_mem_cons] at hw
    obtain ⟨out, hout⟩ := h
    obtain ⟨rest, rfl, hrest⟩ := exists_of_replaceTrigraphs_eq_cons hout.symm hw.1
    exact List.cons_prefix_cons.2 ⟨rfl, ih hw.2 ⟨out, hrest.symm⟩⟩

/-- Behind any of its characters, a result is the result of what is left of the text. -/
theorem exists_drop_replaceTrigraphs (cs : Text) (n : Nat) :
    ∃ rest, rest <:+ cs ∧ (replaceTrigraphs cs).drop n = replaceTrigraphs rest := by
  have htail (cs : Text) : ∃ rest, rest <:+ cs ∧
      (replaceTrigraphs cs).tail = replaceTrigraphs rest := by
    fun_cases replaceTrigraphs cs with
    | case1 c rest r hr => exact ⟨rest, ⟨['?', '?', c], rfl⟩, rfl⟩
    | case2 c rest hr => exact ⟨'?' :: c :: rest, List.suffix_cons _ _, rfl⟩
    | case3 c rest hnot => exact ⟨rest, List.suffix_cons _ _, rfl⟩
    | case4 => exact ⟨[], List.suffix_rfl, rfl⟩
  induction n generalizing cs with
  | zero => exact ⟨cs, List.suffix_rfl, rfl⟩
  | succ n ih =>
    obtain ⟨rest, hsuffix, hrest⟩ := htail cs
    obtain ⟨more, hmore, heq⟩ := ih rest
    exact ⟨more, hmore.trans hsuffix, by rw [← List.drop_tail, hrest, heq]⟩

/-- Characters that no trigraph stands for have stood side by side before. -/
theorem isInfix_of_replaceTrigraphs {w : Text} (hw : ∀ c ∈ w, ∀ d, trigraph? d ≠ some c)
    (h : w <:+: replaceTrigraphs cs) : w <:+: cs := by
  obtain ⟨before, after, heq⟩ := h
  obtain ⟨rest, hsuffix, hrest⟩ := exists_drop_replaceTrigraphs cs before.length
  rw [← heq, List.append_assoc, List.drop_left] at hrest
  exact (isPrefix_of_replaceTrigraphs hw ⟨after, hrest⟩).isInfix.trans hsuffix.isInfix

theorem replaceTrigraphs_append_of_not_mem (h : '?' ∉ cs) (rest : Text) :
    replaceTrigraphs (cs ++ rest) = cs ++ replaceTrigraphs rest := by
  refine replaceTrigraphs_append cs fun n hn hat => h ?_
  obtain ⟨t, ht, hprefix⟩ := hat
  obtain ⟨c, r, -, rfl⟩ := mem_trigraphs_iff.1 ht
  have hne : cs.drop n ≠ [] := mt List.drop_eq_nil_iff.1 (Nat.not_le_of_lt hn)
  obtain ⟨d, ds, hds⟩ := List.exists_cons_of_ne_nil hne
  rw [List.drop_append_of_le_length (Nat.le_of_lt hn), hds] at hprefix
  obtain ⟨rfl, -⟩ := List.cons_prefix_cons.1 hprefix
  exact List.mem_of_mem_drop (hds ▸ List.mem_cons_self)

theorem replaceTrigraphs_of_not_mem (h : '?' ∉ cs) : replaceTrigraphs cs = cs := by
  have hself := replaceTrigraphs_append_of_not_mem h []
  rwa [List.append_nil, replaceTrigraphs, List.append_nil] at hself

/-! ## The result -/

/-- No trigraph begins a result: its three characters would have stood in the text. -/
theorem not_trigraphAt_zero_replaceTrigraphs (cs : Text) : ¬TrigraphAt (replaceTrigraphs cs) 0 := by
  rintro ⟨t, ht, hprefix⟩
  obtain ⟨c, r, hr, rfl⟩ := mem_trigraphs_iff.1 ht
  have hmark : ∀ d, trigraph? d ≠ some '?' := fun d hd => (trigraph?_trigraph? hd).1 rfl
  have hend : ∀ d, trigraph? d ≠ some c := fun d hd => by
    rw [(trigraph?_trigraph? hd).2] at hr
    cases hr
  have hbefore : ['?', '?', c] <+: cs := by
    refine isPrefix_of_replaceTrigraphs ?_ hprefix
    exact List.forall_mem_cons.2 ⟨hmark, List.forall_mem_cons.2 ⟨hmark,
      List.forall_mem_singleton.2 hend⟩⟩
  obtain ⟨rest, rfl⟩ := hbefore
  rw [replaceTrigraphs_trigraph ht] at hprefix
  exact hmark c (hr.trans (congrArg some (List.cons_prefix_cons.1 hprefix).1.symm))

theorem not_trigraphAt_replaceTrigraphs (cs : Text) (n : Nat) :
    ¬TrigraphAt (replaceTrigraphs cs) n := by
  obtain ⟨rest, -, hrest⟩ := exists_drop_replaceTrigraphs cs n
  rw [TrigraphAt, hrest]
  exact not_trigraphAt_zero_replaceTrigraphs rest

/-- Where no trigraph stands, there is nothing to replace. -/
theorem replaceTrigraphs_eq_self_of_not_trigraphAt (h : ∀ n, ¬TrigraphAt cs n) :
    replaceTrigraphs cs = cs := by
  refine replaceTrigraphs_eq_self fun c hc hfound => ?_
  obtain ⟨r, hr⟩ := Option.isSome_iff_exists.1 hc
  obtain ⟨n, hn⟩ := trigraphAt_of_isInfix (mem_trigraphs_iff.2 ⟨c, r, hr, rfl⟩) hfound
  exact h n hn

/-! ## The leftmost replacement -/

theorem Replaced.cons (h : Replaced cs out) (hc : ¬TrigraphAt (c :: cs) 0) :
    Replaced (c :: cs) (c :: out) := by
  cases h with
  | none h => exact .none fun n => n.casesOn hc h
  | @first before after out t ht h hafter =>
    have hbefore : ∀ n < (c :: before).length, ¬TrigraphAt (c :: before ++ (t.1 ++ after)) n := by
      intro n hn
      cases n with
      | zero => exact hc
      | succ n => exact h n (Nat.lt_of_succ_lt_succ hn)
    exact .first ht hbefore hafter

/-- The function replaces the leftmost trigraph first. -/
theorem replaced_replaceTrigraphs (cs : Text) : Replaced cs (replaceTrigraphs cs) := by
  induction hn : cs.length using Nat.strongRecOn generalizing cs with
  | ind n ih =>
    subst hn
    by_cases hzero : TrigraphAt cs 0
    · obtain ⟨t, ht, after, rfl⟩ := hzero
      have hshorter : after.length < (t.1 ++ after).length := by
        obtain ⟨c, r, -, rfl⟩ := mem_trigraphs_iff.1 ht
        simp only [List.length_append, List.length_cons, List.length_nil]
        omega
      rw [replaceTrigraphs_trigraph ht]
      have hbefore : ∀ n < ([] : Text).length, ¬TrigraphAt ([] ++ (t.1 ++ after)) n :=
        fun n hn => absurd hn n.not_lt_zero
      exact .first ht hbefore (ih _ hshorter after rfl)
    · cases cs with
      | nil =>
        refine .none fun n hn => hzero ?_
        rwa [TrigraphAt, List.drop_nil] at hn
      | cons c cs =>
        rw [replaceTrigraphs_cons hzero]
        exact (ih _ (Nat.lt_succ_self _) cs rfl).cons hzero

theorem Replaced.eq (h : Replaced cs out) : out = replaceTrigraphs cs := by
  induction h with
  | none h => exact (replaceTrigraphs_eq_self_of_not_trigraphAt h).symm
  | @first before after out t ht h hafter ih =>
    rw [replaceTrigraphs_append before h, replaceTrigraphs_trigraph ht, ← ih]

/-- Trigraphs are replaced completely and from the left: the result has none of the nine
    trigraphs, it is its own result, and it is the one text in which the trigraphs are replaced
    the leftmost first, with everything else as it was. -/
theorem replaced_replaceTrigraphs_iff (cs : Text) :
    (∀ t ∈ trigraphs, ¬t.1 <:+: replaceTrigraphs cs) ∧
      replaceTrigraphs (replaceTrigraphs cs) = replaceTrigraphs cs ∧
      ∀ out, Replaced cs out ↔ out = replaceTrigraphs cs := by
  refine ⟨fun t ht hfound => ?_, ?_, fun out => ⟨Replaced.eq, ?_⟩⟩
  · obtain ⟨n, hn⟩ := trigraphAt_of_isInfix ht hfound
    exact not_trigraphAt_replaceTrigraphs cs n hn
  · exact replaceTrigraphs_eq_self_of_not_trigraphAt (not_trigraphAt_replaceTrigraphs cs)
  · rintro rfl
    exact replaced_replaceTrigraphs cs

/-- In a row of question marks only the last two can begin a trigraph. -/
example : replaceTrigraphs "????/???=??".toList = "??\\?#??".toList := by decide

end IdlFrontend.Source
