import IdlFrontend.Proofs.Conditional.Nesting
import IdlFrontend.Proofs.Source.WholeLines

/-!
# The same lines in other places

Two sessions read the same lines, which may stand on other lines of other files and have
empty lines between them.

Results:

* `follows_readLines`: sessions that resemble each other still do behind the same lines.
-/

namespace IdlFrontend

open Lexeme

namespace Session

/-- The sessions that read lines, one of them within other conditionals, resemble each other,
    and no macro has parameters. -/
structure Watched (base : Conditionals) (f : OpenFile) (s : Session) (g : OpenFile) (t : Session) :
    Prop extends Within base f s g t where
  objectLike : s.macros.IsObjectLike

variable {base : Conditionals} {f g : OpenFile} {s t : Session}
  {enter enter' : Text → Bool → Nat → PreprocessM (OptionT Id) Unit}

theorem follows_readWatched (henter : EntersAlike enter enter') (hbase : base.kept)
    (h : Watched base f s g t) {group group' : List Lexeme}
    (hsame : restamp 0 group = restamp 0 group') (hgroup : PlacelessLine group) :
    Follows (Watched base) (readWatched enter f group) s (readWatched enter' g group') t := by
  refine follows_requireObjectLike_bind h.session.macros.isObjectLike fun hmacros => ?_
  refine (follows_readLineAtOnce henter hbase h.toWithin hmacros hsame hgroup).bind
    fun f s g t h => ?_
  exact follows_requireObjectLike_bind h.session.macros.isObjectLike fun hmacros =>
    follows_pure ⟨h, hmacros⟩

theorem Watched.left (h : Watched base f s g t) {s' : Session} (hs : WritesNothing s s') :
    Watched base f s' g t := by
  obtain ⟨hmacros, hwritten⟩ := hs
  refine ⟨h.setSession ⟨?_, hwritten.trans h.session.written⟩, ?_⟩
  · rw [hmacros]
    exact h.session.macros
  · rw [hmacros]
    exact h.objectLike

theorem Watched.right (h : Watched base f s g t) {t' : Session} (ht : WritesNothing t t') :
    Watched base f s g t' := by
  obtain ⟨hmacros, hwritten⟩ := ht
  refine ⟨h.setSession ⟨?_, h.session.written.trans hwritten.symm⟩, h.objectLike⟩
  rw [hmacros]
  exact h.session.macros

/-- An empty line changes nothing. -/
theorem succeeds_emptyLine (enter : Text → Bool → Nat → PreprocessM (OptionT Id) Unit)
    (hpending : f.pending = []) (hmacros : s.macros.IsObjectLike) {group : List Lexeme}
    (hempty : restamp 0 group = emptyLine) :
    ∃ s', Succeeds (readWatched enter f group) s f s' ∧ WritesNothing s s' := by
  obtain ⟨n, ns, rfl, hn, hns⟩ := List.map_eq_cons_iff.1 hempty
  obtain rfl := List.map_eq_nil_iff.1 hns
  have hkind : n.kind = .newline := congrArg Lexeme.kind hn
  have hline : renumber f.shift [n] = [{ n with line := shiftLine n.line f.shift }] := rfl
  have hd : directive? (renumber f.shift [n]) = none := by
    rw [hline]
    exact directive?_cons_of_ne_space [] (by simp [hkind]) (by simp [isPunct, hkind])
  by_cases hkept : f.conditionals.kept
  · have hexpand : s.macros.expand (renumber f.shift [n]) = .ok (renumber f.shift [n]) := by
      refine MacroTable.expand_eq_self fun t ht hword => ?_
      obtain rfl := List.mem_singleton.1 ht
      cases hkind.symm.trans hword
    refine ⟨_, succeeds_readWatched_iff.2
      ⟨hmacros, exec_readLineAtOnce_of_expand enter hpending hkept hd hexpand, hmacros⟩, rfl, ?_⟩
    rw [MarkedText.significant_push, significant_of_isBlank, List.append_nil]
    exact List.forall_mem_singleton.2 (isBlank_of_newline hkind)
  · have hskipped := succeeds_readLineAtOnce_skipped enter hpending (by simpa using hkept) hd s
    exact ⟨s, succeeds_readWatched_iff.2 ⟨hmacros, hskipped, hmacros⟩, rfl, rfl⟩

theorem follows_emptyLine_left {α β : Type} {k : OpenFile → PreprocessM (OptionT Id) α}
    {y : PreprocessM (OptionT Id) β} {Q : α → Session → β → Session → Prop}
    (h : Watched base f s g t) {group : List Lexeme} (hempty : restamp 0 group = emptyLine)
    (hk : ∀ s', Watched base f s' g t → Follows Q (k f) s' y t) :
    Follows Q (readWatched enter f group >>= k) s y t := by
  intro a u ha
  obtain ⟨s', hline, hnothing⟩ := succeeds_emptyLine enter h.pending h.objectLike hempty
  obtain ⟨f', s'', hline', hrest⟩ := succeeds_bind_iff.1 ha
  obtain ⟨rfl, rfl⟩ := hline.eq hline'
  exact hk s' (h.left hnothing) a u hrest

theorem follows_emptyLine_right {α β : Type} {x : PreprocessM (OptionT Id) α}
    {k : OpenFile → PreprocessM (OptionT Id) β} {Q : α → Session → β → Session → Prop}
    (h : Watched base f s g t) {group : List Lexeme} (hempty : restamp 0 group = emptyLine)
    (hk : ∀ t', Watched base f s g t' → Follows Q x s (k g) t') :
    Follows Q x s (readWatched enter' g group >>= k) t := by
  intro a u ha
  obtain ⟨t', hline, hnothing⟩ := succeeds_emptyLine enter' h.pending'
    (h.session.macros.isObjectLike h.objectLike) hempty
  obtain ⟨b, u', hb, hQ⟩ := hk t' (h.right hnothing) a u ha
  exact ⟨b, u', hline.bind hb, hQ⟩

/-- Sessions that read the same lines resemble each other, empty lines and line numbers apart. -/
theorem follows_readLines (henter : EntersAlike enter enter') (hbase : base.kept)
    {groups groups' : List (List Lexeme)} (hsame : solidLines groups = solidLines groups')
    (hgroups : ∀ group ∈ groups, PlacelessLine group) (h : Watched base f s g t) :
    Follows (Watched base) (groups.foldlM (readWatched enter) f) s
      (groups'.foldlM (readWatched enter') g) t := by
  induction groups generalizing groups' f s g t with
  | nil =>
    induction groups' generalizing t with
    | nil => exact follows_pure h
    | cons group' groups' ih =>
      rw [solidLines_cons] at hsame
      split at hsame
      next hempty =>
        rw [List.foldlM_cons]
        exact follows_emptyLine_right h hempty fun t' h => ih hsame h
      · cases hsame
  | cons group groups ih =>
    obtain ⟨hgroup, hgroups⟩ := List.forall_mem_cons.1 hgroups
    rw [List.foldlM_cons]
    by_cases hempty : restamp 0 group = emptyLine
    · rw [solidLines_cons, if_pos hempty] at hsame
      exact follows_emptyLine_left h hempty fun s' h => ih hsame hgroups h
    · rw [solidLines_cons, if_neg hempty] at hsame
      induction groups' generalizing t with
      | nil => cases hsame
      | cons group' groups' ih' =>
        rw [List.foldlM_cons]
        rw [solidLines_cons] at hsame
        split at hsame
        next hempty' => exact follows_emptyLine_right h hempty' fun t' h => ih' hsame h
        · obtain ⟨hline, hrest⟩ := List.cons.inj hsame
          exact (follows_readWatched henter hbase h hline hgroup).bind fun f s g t h =>
            ih hrest hgroups h

end Session

end IdlFrontend
