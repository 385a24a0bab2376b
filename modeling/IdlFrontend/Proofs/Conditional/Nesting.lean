import IdlFrontend.Proofs.Session.Resemblance

/-!
# Conditionals that are closed where they are opened

Which conditionals are open behind a line depends on the directives only, and not on the
conditions. A file that can be read to its end closes all of them, and then it can also be
passed over, line by line, in a region that is not kept.

Results:

* `balanced_of_succeeds`: the lines of a file that is read with success are balanced.
* `exists_skip`: balanced lines are passed over where nothing is kept.
-/

namespace IdlFrontend

open Lexeme

/-! ## Nesting -/

/-- How many conditionals are open behind a directive, if `n` are in front of it. There is
    none to go on with, or to close, if `n` is zero. -/
def BranchName.nesting : BranchName → Nat → Option Nat
  | .opener _, n => some (n + 1)
  | .elif, n | .otherwise, n => if n = 0 then none else some n
  | .endif, n => if n = 0 then none else some (n - 1)

/-- How many conditionals are open behind a line, if `n` are in front of it. -/
def nestingBehind (n : Nat) (group : List Lexeme) : Option Nat :=
  match (directive? group).bind DirectiveLine.name? with
  | some (.branch name) => name.nesting n
  | _ => some n

/-- The lines close the conditionals that they open, and no others. -/
def Balanced (groups : List (List Lexeme)) : Prop := groups.foldlM nestingBehind 0 = some 0

instance instDecidableBalancedLines (groups : List (List Lexeme)) : Decidable (Balanced groups) :=
  inferInstanceAs (Decidable (_ = _))

theorem nestingBehind_of_restamp {group group' : List Lexeme}
    (hsame : restamp 0 group = restamp 0 group') :
    (nestingBehind · group) = (nestingBehind · group') := by
  have hname : (directive? group).bind DirectiveLine.name? =
      (directive? group').bind DirectiveLine.name? := by
    rcases directive?_of_restamp hsame with ⟨hd, hd'⟩ | ⟨d, d', hd, hd', hname, -⟩
    · rw [hd, hd']
    · rw [hd, hd', Option.bind_some, Option.bind_some, hname]
  funext n
  rw [nestingBehind, nestingBehind, hname]

theorem nestingBehind_renumber (shift : Int) (n : Nat) (group : List Lexeme) :
    nestingBehind n (Session.renumber shift group) = nestingBehind n group :=
  congrFun (nestingBehind_of_restamp (restamp_renumber shift group)) n

theorem nestingBehind_of_none {group : List Lexeme} (hd : directive? group = none) (n : Nat) :
    nestingBehind n group = some n := by
  rw [nestingBehind, hd]
  rfl

theorem nestingBehind_of_branch {group : List Lexeme} {d : DirectiveLine}
    (hd : directive? group = some d) {name : BranchName} (hname : d.name? = some (.branch name))
    (n : Nat) :
    nestingBehind n group = name.nesting n := by
  rw [nestingBehind, hd, Option.bind_some, hname]

theorem nestingBehind_of_not_branch {group : List Lexeme} {d : DirectiveLine}
    (hd : directive? group = some d) (hname : ∀ name, d.name? ≠ some (.branch name)) (n : Nat) :
    nestingBehind n group = some n := by
  rw [nestingBehind, hd, Option.bind_some]
  split
  next hbranch => exact absurd hbranch (hname _)
  · rfl

namespace Conditionals

/-- The number of open conditionals behind a directive. -/
theorem length_branch {cs after : Conditionals} {line : Nat}
    {condition : Unit → Except PreprocessError Bool} {name : BranchName}
    (h : cs.branch line condition name = .ok after) :
    name.nesting cs.length = some after.length := by
  cases name with
  | opener opener =>
    simp only [branch, start] at h
    split at h
    · cases hholds : condition () with
      | error e =>
        rw [hholds] at h
        cases h
      | ok holds =>
        rw [hholds] at h
        cases h
        rfl
    · cases h
      rfl
  | elif =>
    cases cs with
    | nil => cases h
    | cons c cs =>
      simp only [branch, elif] at h
      split at h
      · cases h
        rfl
      · cases hholds : condition () with
        | error e =>
          rw [hholds] at h
          cases h
        | ok holds =>
          rw [hholds] at h
          cases h
          rfl
  | otherwise =>
    cases cs with
    | nil => cases h
    | cons c cs =>
      cases h
      rfl
  | endif =>
    cases cs with
    | nil => cases h
    | cons c cs =>
      cases h
      rfl

end Conditionals

namespace Session

/-! ## Lines that are read -/

section Read

variable {α β : Type} {enter : Text → Bool → Nat → PreprocessM (OptionT Id) Unit}

/-- All values that the step may come to with success have the property. -/
def Yields (P : α → Prop) (x : PreprocessM (OptionT Id) α) :
    Prop := ∀ s a s', Succeeds x s a s' → P a

theorem yields_pure {P : α → Prop} {a : α} (h : P a) : Yields P (pure a) := by
  intro s b s' hb
  obtain ⟨rfl, -⟩ := Succeeds.eq (exec_pure a s) hb
  exact h

theorem yields_throw {P : α → Prop} (e : PreprocessError) : Yields P (throw e) :=
  fun _ _ _ h => by cases h

theorem Yields.bind {P : α → Prop} {Q : β → Prop} {x : PreprocessM (OptionT Id) α}
    {f : α → PreprocessM (OptionT Id) β} (hx : Yields P x) (hf : ∀ a, P a → Yields Q (f a)) :
    Yields Q (x >>= f) := by
  intro s b s' h
  obtain ⟨a, u, ha, hb⟩ := succeeds_bind_iff.1 h
  exact hf a (hx s a u ha) u b s' hb

theorem Yields.of_bind {Q : β → Prop} {x : PreprocessM (OptionT Id) α}
    {f : α → PreprocessM (OptionT Id) β} (hf : ∀ a, Yields Q (f a)) : Yields Q (x >>= f) :=
  Yields.bind (P := fun _ => True) (fun _ _ _ _ => trivial) fun a _ => hf a

theorem yields_ofExcept (r : Except PreprocessError α) :
    Yields (fun a => r = .ok a) (MonadExcept.ofExcept r : PreprocessM (OptionT Id) α) := by
  intro s a s' h
  rw [Succeeds, exec_ofExcept] at h
  exact congrArg Prod.fst (Option.some.inj h)

/-- Writing text leaves the conditionals as they are. -/
theorem yields_flush (f : OpenFile) : Yields (fun g => g.conditionals = f.conditionals) (flush f) :=
  .of_bind fun _ => .of_bind fun _ => .of_bind fun _ => yields_pure rfl

theorem yields_obey (f : OpenFile) (group : List Lexeme) (d : DirectiveLine) (name : CommandName) :
    Yields (fun g => g.conditionals = f.conditionals) (obey enter f group d name) := by
  match name with
  | .define => exact (yields_flush f).bind fun _ hf => .of_bind fun _ => yields_pure hf
  | .undef =>
    refine (yields_flush f).bind fun _ hf => ?_
    split
    · exact yields_throw _
    · exact .of_bind fun _ => yields_pure hf
  | .include =>
    exact (yields_flush f).bind fun _ hf =>
      .of_bind fun _ => .of_bind fun _ => .of_bind fun _ => yields_pure hf
  | .pragma => exact (yields_flush f).bind fun _ hf => .of_bind fun _ => yields_pure hf
  | .line =>
    show Yields _ (changeLine f _ _)
    unfold changeLine
    split
    · exact yields_throw _
    · refine (yields_flush f).bind fun _ hf => ?_
      dsimp only
      split
      · split
        · exact yields_pure hf
        · exact .of_bind fun _ => yields_pure hf
      · exact yields_throw _

theorem yields_readLineAtOnce (f : OpenFile) (group : List Lexeme) :
    Yields (fun g => nestingBehind f.conditionals.length group = some g.conditionals.length)
      (readLineAtOnce enter f group) := by
  have hflush {f' : OpenFile} (h : nestingBehind f.conditionals.length group = some
      f'.conditionals.length) :
      Yields (fun g => nestingBehind f.conditionals.length group = some g.conditionals.length)
        (flush f') := by
    intro s g s' hg
    rw [yields_flush f' s g s' hg, h]
  unfold readLineAtOnce readLine
  dsimp only
  rw [← nestingBehind_renumber f.shift] at hflush ⊢
  cases hd : directive? (renumber f.shift group) with
  | none =>
    dsimp only
    split <;>
    · rw [pure_bind]
      exact hflush (nestingBehind_of_none hd _)
  | some d =>
    dsimp only
    split
    next name hname =>
      simp only [bind_assoc, pure_bind]
      refine .of_bind fun s => (yields_ofExcept _).bind fun cs hcs => hflush ?_
      rw [nestingBehind_of_branch hd hname]
      exact Conditionals.length_branch hcs
    next name hname =>
      have hsame :=
        nestingBehind_of_not_branch hd (fun _ => by rw [hname]; rintro ⟨⟩) f.conditionals.length
      split
      · rw [bind_assoc]
        refine (yields_obey f _ d name).bind fun g hg => ?_
        rw [pure_bind]
        refine hflush ?_
        rw [hsame, hg]
      · simp only [pure_bind]
        exact hflush hsame
    next hname =>
      simp only [pure_bind]
      exact hflush (nestingBehind_of_not_branch hd (fun _ => by rw [hname]; rintro ⟨⟩) _)

theorem yields_foldlM (groups : List (List Lexeme)) (f : OpenFile) :
    Yields (fun g => groups.foldlM nestingBehind f.conditionals.length = some g.conditionals.length)
      (groups.foldlM (readWatched enter) f) := by
  induction groups generalizing f with
  | nil => exact yields_pure rfl
  | cons group groups ih =>
    rw [List.foldlM_cons]
    refine .bind (P := fun g => nestingBehind f.conditionals.length group = some
      g.conditionals.length) ?_ fun g hg s a s' ha => ?_
    · exact .of_bind fun _ => (yields_readLineAtOnce f group).bind fun g hg =>
        .of_bind fun _ => yields_pure hg
    · rw [hg]
      exact ih g s a s' ha

/-- A file that is read with success closes what it opens. -/
theorem balanced_of_succeeds {file : SourceFile} {s s' : Session} {a : Unit}
    (h : Succeeds (readFileWithBy readWatched file enter) s a s') :
    Balanced (sourceLines file.contents) := by
  refine Yields.of_bind (Q := fun _ => Balanced (sourceLines file.contents)) (fun _ => ?_) s a s' h
  refine (yields_foldlM _ _).bind fun f hf => (yields_flush f).bind fun g hg => ?_
  intro t b t' hfinish
  have hclosed := yields_ofExcept _ t b t' hfinish
  cases hconditionals : g.conditionals with
  | cons c cs =>
    rw [hconditionals] at hclosed
    cases hclosed
  | nil =>
    rw [← hg, hconditionals] at hf
    exact hf

end Read

end Session

/-! ## Lines that are passed over -/

/-- The conditional has been opened where nothing is kept. -/
structure Conditional.IsIdle (c : Conditional) : Prop where
  reached : c.reached = false
  keeping : c.keeping = false

namespace Conditionals

variable {inner base : Conditionals}

theorem kept_idle_append (hinner : ∀ c ∈ inner, c.IsIdle) (hbase : base.kept = false) :
    kept (inner ++ base) = false := by
  cases inner with
  | nil => exact hbase
  | cons c inner => exact (hinner c List.mem_cons_self).keeping

/-- Where nothing is kept, no condition is evaluated and no branch is kept. -/
theorem exists_branch_idle (hinner : ∀ c ∈ inner, c.IsIdle) (hbase : base.kept = false)
    {name : BranchName} {n : Nat} (hn : name.nesting inner.length = some n) (line : Nat)
    (condition : Unit → Except PreprocessError Bool) :
    ∃ inner', branch (inner ++ base) line condition name = .ok (inner' ++ base) ∧
      inner'.length = n ∧
      ∀ c ∈ inner', c.IsIdle := by
  cases name with
  | opener opener =>
    cases hn
    refine ⟨⟨opener, line, false, false, false⟩ :: inner, ?_, rfl,
      List.forall_mem_cons.2 ⟨⟨rfl, rfl⟩, hinner⟩⟩
    simp only [branch, start]
    rw [kept_idle_append hinner hbase]
    rfl
  | elif =>
    cases inner with
    | nil => cases hn
    | cons c inner =>
      cases hn
      rw [List.forall_mem_cons] at hinner
      refine ⟨{ c with keeping := false } :: inner, ?_, rfl,
        List.forall_mem_cons.2 ⟨⟨hinner.1.reached, rfl⟩, hinner.2⟩⟩
      simp only [branch, elif, List.cons_append]
      rw [hinner.1.reached]
      rfl
  | otherwise =>
    cases inner with
    | nil => cases hn
    | cons c inner =>
      cases hn
      rw [List.forall_mem_cons] at hinner
      have hnever : (c.reached && !c.taken) = false := by rw [hinner.1.reached, Bool.false_and]
      let closed := { c with
        taken := c.taken || (c.reached && !c.taken)
        keeping := c.reached && !c.taken }
      refine ⟨closed :: inner, rfl, rfl, ?_⟩
      exact List.forall_mem_cons.2 ⟨⟨hinner.1.reached, hnever⟩, hinner.2⟩
  | endif =>
    cases inner with
    | nil => cases hn
    | cons c inner =>
      cases hn
      exact ⟨inner, rfl, rfl, (List.forall_mem_cons.1 hinner).2⟩

end Conditionals

namespace Session

variable (enter : Text → Bool → Nat → PreprocessM (OptionT Id) Unit) {inner base : Conditionals}
  {g : OpenFile} {t : Session}

/-- The session `t'` has the macros of `t` and has written line breaks at most. -/
structure WritesNothing (t t' : Session) : Prop where
  macros : t'.macros = t.macros
  significant : t'.output.significant = t.output.significant

theorem exists_skip_line (hinner : ∀ c ∈ inner, c.IsIdle) (hbase : base.kept = false)
    (hg : g.conditionals = inner ++ base) (hpending : g.pending = []) (ht : t.macros.IsObjectLike)
    {group : List Lexeme} {n : Nat} (hn : nestingBehind inner.length group = some n) :
    ∃ inner' t', Succeeds (readWatched enter g group) t
        { g with conditionals := inner' ++ base } t' ∧
      inner'.length = n ∧ (∀ c ∈ inner', c.IsIdle) ∧ WritesNothing t t' := by
  have hkept : g.conditionals.kept = false := by rw [hg, Conditionals.kept_idle_append hinner hbase]
  have hsame : g = { g with conditionals := inner ++ base } := by rw [← hg]
  rw [← nestingBehind_renumber g.shift] at hn
  cases hd : directive? (renumber g.shift group) with
  | none =>
    rw [nestingBehind_of_none hd] at hn
    refine ⟨inner, t, ?_, Option.some.inj hn, hinner, rfl, rfl⟩
    rw [← hsame]
    exact succeeds_readWatched_iff.2
      ⟨ht, succeeds_readLineAtOnce_skipped enter hpending hkept hd t, ht⟩
  | some d =>
    -- Only the line break of a directive is written.
    have hwritten (cs : Conditionals) : ∃ t', Succeeds
        (flush { g with
          conditionals := cs
          pending := g.pending ++ lineBreak (renumber g.shift group) })
        t { g with conditionals := cs } t' ∧ WritesNothing t t' := by
      refine ⟨_, succeeds_flush_lineBreak (f := { g with conditionals := cs }) hpending t _, rfl,
        ?_⟩
      rw [MarkedText.significant_push, significant_lineBreak, List.append_nil]
    by_cases hbranch : ∃ name, d.name? = some (.branch name)
    · obtain ⟨name, hname⟩ := hbranch
      rw [nestingBehind_of_branch hd hname] at hn
      obtain ⟨inner', hbranch, hlength, hidle⟩ := Conditionals.exists_branch_idle hinner
        hbase hn d.line fun _ => d.branchHolds t.macros name
      obtain ⟨t', hflush, hnothing⟩ := hwritten (inner' ++ base)
      refine ⟨inner', t', succeeds_readWatched_iff.2 ⟨ht, ?_, hnothing.macros ▸ ht⟩, hlength,
        hidle, hnothing⟩
      unfold readLineAtOnce readLine
      dsimp only
      rw [hd]
      dsimp only
      rw [hname]
      simp only [bind_assoc, pure_bind]
      refine Succeeds.bind (exec_get t)
        (Succeeds.bind (?_ : Succeeds _ t (inner' ++ base) t) hflush)
      rw [hg, hbranch]
      exact exec_ofExcept _ t
    · rw [nestingBehind_of_not_branch hd fun name hname => hbranch ⟨name, hname⟩] at hn
      obtain ⟨t', hflush, hnothing⟩ := hwritten (inner ++ base)
      refine ⟨inner, t', succeeds_readWatched_iff.2 ⟨ht, ?_, hnothing.macros ▸ ht⟩,
        Option.some.inj hn, hinner, hnothing⟩
      unfold readLineAtOnce readLine
      dsimp only
      rw [hd]
      dsimp only
      split
      next name hname => exact absurd ⟨name, hname⟩ hbranch
      next name hname =>
        rw [if_neg (by simp [hkept])]
        simp only [pure_bind]
        rw [← hg] at hflush ⊢
        exact hflush
      · simp only [pure_bind]
        rw [← hg] at hflush ⊢
        exact hflush

/-- **Balanced lines are passed over** where nothing is kept. -/
theorem exists_skip {groups : List (List Lexeme)} (hgroups : Balanced groups)
    (hkept : g.conditionals.kept = false) (hpending : g.pending = []) (ht : t.macros.IsObjectLike) :
    ∃ t', Succeeds (groups.foldlM (readWatched enter) g) t g t' ∧ WritesNothing t t' := by
  have hrest (groups : List (List Lexeme)) {inner : Conditionals} (hinner : ∀ c ∈ inner, c.IsIdle)
      {t : Session} (ht : t.macros.IsObjectLike)
      (hgroups : groups.foldlM nestingBehind inner.length = some 0) :
      ∃ t', Succeeds (groups.foldlM (readWatched enter)
        { g with conditionals := inner ++ g.conditionals }) t g t' ∧ WritesNothing t t' := by
    induction groups generalizing inner t with
    | nil =>
      obtain rfl : inner = [] := List.length_eq_zero_iff.1 (Option.some.inj hgroups)
      exact ⟨t, exec_pure _ t, rfl, rfl⟩
    | cons group groups ih =>
      rw [List.foldlM_cons] at hgroups ⊢
      obtain ⟨n, hn, hrest⟩ := Option.bind_eq_some_iff.1 hgroups
      obtain ⟨inner', t₁, hline, rfl, hidle, hnothing⟩ := exists_skip_line enter
        (g := { g with conditionals := inner ++ g.conditionals }) hinner hkept rfl hpending ht hn
      obtain ⟨t₂, hlines, hnothing'⟩ := ih hidle (hnothing.macros ▸ ht) hrest
      exact ⟨t₂, hline.bind hlines, hnothing'.macros.trans hnothing.macros,
        hnothing'.significant.trans hnothing.significant⟩
  exact hrest groups (List.forall_mem_nil Conditional.IsIdle) ht hgroups

end Session

end IdlFrontend
