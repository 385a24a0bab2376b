import IdlFrontend.Proofs.Reading.ConstExpr
import IdlFrontend.Proofs.Reading.PropertyText
import IdlFrontend.Proofs.Source.WholeLines

/-!
# Scoped names that are written and read back

A scope can be kept as the chain of its segments, innermost first. It is then written link by
link, and each link by itself decides from the next one whether a separator stands before it.
The same text is written, and there are no blanks in it: the lexer has to tell identifiers and
separators apart.

Results:

* `ScopeChain.text_ofScope`, `ScopedName.text_eq_within`: a chain is written as the scope is.
* `Lexer.InFrontOf.gives_name`: the words of a name that is written.
* `scopedName_readsBack`: a name is read back, and no other one is written in the same way.
-/

namespace IdlFrontend

/-! ## Scopes as chains -/

/-- A scope as the chain of its segments, innermost first. It ends in the current or the global
    scope. -/
inductive ScopeChain where
  | current
  | root
  | within (name : Text) (parent : ScopeChain)
deriving DecidableEq, Repr

namespace ScopeChain

def isCurrent : ScopeChain → Bool
  | current => true
  | root | within _ _ => false

/-- The number of links. -/
def depth : ScopeChain → Nat
  | current | root => 0
  | within _ parent => 1 + parent.depth

/-- Whether the chain ends in the global scope. -/
def isAbsolute : ScopeChain → Bool
  | current => false
  | root => true
  | within _ parent => parent.isAbsolute

/-- The chain as it is written. A link has a separator before it unless it is the first thing. -/
def text : ScopeChain → Text
  | current | root => []
  | within name parent => parent.text ++ (if parent.isCurrent then [] else Scope.separator) ++ name

/-- The chain of a scope. -/
def ofScope (s : Scope) : ScopeChain :=
  s.path.foldl (fun parent name => .within name parent) (if s.absolute then .root else .current)

variable {absolute : Bool} {path : List Text} {name : Text}

theorem ofScope_concat :
    ofScope ⟨absolute, path ++ [name]⟩ = .within name (ofScope ⟨absolute, path⟩) := by
  rw [ofScope, List.foldl_append]
  rfl

theorem isCurrent_ofScope : (ofScope ⟨absolute, path⟩).isCurrent = (!absolute && path.isEmpty) := by
  induction path using List.reverseRecOn with
  | nil => cases absolute <;> rfl
  | append_singleton path name =>
    rw [ofScope_concat]
    simp [isCurrent]

theorem depth_ofScope (s : Scope) : (ofScope s).depth = s.depth := by
  obtain ⟨absolute, path⟩ := s
  show _ = path.length
  induction path using List.reverseRecOn with
  | nil => cases absolute <;> rfl
  | append_singleton path name ih =>
    rw [ofScope_concat, depth, ih, List.length_append, Nat.add_comm]
    rfl

theorem isAbsolute_ofScope (s : Scope) : (ofScope s).isAbsolute = s.absolute := by
  obtain ⟨absolute, path⟩ := s
  induction path using List.reverseRecOn with
  | nil => cases absolute <;> rfl
  | append_singleton path name ih =>
    rw [ofScope_concat]
    exact ih

theorem text_ofScope (s : Scope) : (ofScope s).text = s.text := by
  obtain ⟨absolute, path⟩ := s
  induction path using List.reverseRecOn with
  | nil => cases absolute <;> rfl
  | append_singleton path name ih =>
    rw [ofScope_concat, text, ih, isCurrent_ofScope]
    cases path with
    | nil => cases absolute <;> simp [Scope.text, Text.join]
    | cons first path =>
      have hjoin := Source.join_append_of_ne_nil Scope.separator (List.cons_ne_nil first path)
        (List.cons_ne_nil name [])
      simp [Scope.text, Text.join] at hjoin ⊢
      simp [hjoin]

end ScopeChain

/-- A name is written as one more link of its scope. -/
theorem ScopedName.text_eq_within (x : ScopedName) :
    x.text = (ScopeChain.within x.name (.ofScope x.scope)).text := by
  obtain ⟨⟨absolute, path⟩, name⟩ := x
  rw [← ScopeChain.ofScope_concat, ScopeChain.text_ofScope]
  have hne : ¬(path ++ [name]).isEmpty := by simp
  exact (if_neg hne).symm

/-! ## The words of a name -/

/-- The text is an identifier of the dialect: a letter or underscore, with letters, digits and
    underscores behind it, and no keyword. -/
def IsIdentifier (d : Dialect) (cs : Text) : Prop := IsName cs ∧ Keyword.ofText? d cs = none

instance (d : Dialect) (cs : Text) : Decidable (IsIdentifier d cs) :=
  inferInstanceAs (Decidable (_ ∧ _))

namespace Lexer

variable {d : Dialect} {below : List Mode} {l : Lexer} {x : Text}

theorem InFrontOf.identifier {cs : Text} (h : l.InFrontOf d (.ordinary :: below) (cs ++ x))
    (hcs : IsIdentifier d cs) (hx : ∀ c ∈ x.head?, isWordPart c = false) :
    l.next = (.ok (some ⟨.identifier, cs, l.line⟩), l.skip cs.length) := by
  refine h.word (r := ⟨.word, .word, .stay⟩) hcs.1 hx (by decide) rfl (by decide) ?_ (by rintro ⟨⟩)
  rw [Meaning.kind?, wordKind, hcs.2]

/-- The separator is one token, and not two colons. -/
theorem InFrontOf.separator (h : l.InFrontOf d (.ordinary :: below) (Scope.separator ++ x)) :
    l.next = (.ok (some ⟨.punct .scope, Scope.separator, l.line⟩),
      l.skip Scope.separator.length) := by
  have hbefore : ∀ r ∈ [⟨.blanks, .nothing, .stay⟩, ⟨.mark '%' ['{'], .nothing, .enter .fragment⟩,
      ⟨.word, .word, .stay⟩] ++ Rule.literals, ¬r.pattern.canBegin ':' := by decide
  have hafter : ∀ r ∈ Punct.all.tail.map (·.rule) ++ Rule.general, r.pattern.canBegin ':' →
      r = Punct.colon.rule := by decide
  refine h.tokenStep (r := Punct.scope.rule) (by decide) ?_ rfl (by rintro ⟨⟩)
  refine step?_eq_some_iff.2 ⟨_, _, ?_, rfl⟩
  rw [h.mode_eq, h.rest]
  show Rule.longestMatch _ _
    (([⟨.blanks, .nothing, .stay⟩, ⟨.mark '%' ['{'], .nothing, .enter .fragment⟩,
    ⟨.word, .word, .stay⟩] ++ Rule.literals) ++ Punct.scope.rule ::
      (Punct.all.tail.map (·.rule) ++ Rule.general)) = _
  refine Rule.longestMatch_of_first rfl (fun q hq k hk => ?_) fun q hq k hk => ?_
  · exact absurd (Pattern.canBegin_of_length? hk) (hbefore q hq)
  · obtain rfl := hafter q hq (Pattern.canBegin_of_length? hk)
    cases hk
    decide

/-- The segments of a name are read one by one. -/
theorem InFrontOf.gives_segments {first : Text} {more : List Text}
    (h : l.InFrontOf d (.ordinary :: below) (Text.join Scope.separator (first :: more) ++ x))
    (hsegments : ∀ s ∈ first :: more, IsIdentifier d s) (hx : ∀ c ∈ x.head?, isWordPart c = false) :
    ∃ m, l.Gives (separated .scope (fun s => [.identifier s]) (first :: more)) m ∧
      m.InFrontOf d (.ordinary :: below) x := by
  induction more generalizing first l with
  | nil =>
    have hfirst : l.InFrontOf d (.ordinary :: below) (first ++ x) := by simpa [Text.join] using h
    have hnext := hfirst.identifier (hsegments first List.mem_cons_self) hx
    exact ⟨_, .cons hnext .word (.nil _), hfirst.skip⟩
  | cons second more ih =>
    rw [Source.join_cons_cons, List.append_assoc, List.append_assoc] at h
    have hnext := h.identifier (hsegments first List.mem_cons_self) (by rintro _ ⟨⟩; rfl)
    have hsecond := h.skip
    obtain ⟨m, hgives, hm⟩ := ih hsecond.skip fun s hs => hsegments s (List.mem_cons_of_mem _ hs)
    exact ⟨m, .cons hnext .word (.cons hsecond.separator .word hgives), hm⟩

/-- The words of a name are read, whatever comes behind it and does not go on with its last
    segment. -/
theorem InFrontOf.gives_name {n : ScopedName} (h : l.InFrontOf d (.ordinary :: below) (n.text ++ x))
    (hn : ∀ s ∈ n.segments, IsIdentifier d s) (hx : ∀ c ∈ x.head?, isWordPart c = false) :
    ∃ m, l.Gives n.words m ∧ m.InFrontOf d (.ordinary :: below) x := by
  obtain ⟨first, more, -, hsegments⟩ := n.exists_ofFirst
  rw [hsegments] at hn
  unfold ScopedName.text at h
  unfold ScopedName.words
  rw [hsegments] at h ⊢
  cases habsolute : n.isAbsolute with
  | false =>
    rw [habsolute] at h
    exact h.gives_segments hn hx
  | true =>
    rw [habsolute, if_pos rfl, List.append_assoc] at h
    obtain ⟨m, hgives, hm⟩ := h.skip.gives_segments hn hx
    exact ⟨m, .cons h.separator .word hgives, hm⟩

end Lexer

/-! ## Reading a name back -/

namespace Parser

variable {d : Dialect} {x : ScopedName}

theorem run_scopedName_text (hx : ∀ s ∈ x.segments, IsIdentifier d s) (n : Nat) :
    ∃ s', run scopedName (.ofTextWithin d x.text n) = (.ok x, s') ∧ s'.openAngles = n ∧
      (run peek? s').1 = .ok none := by
  have hfront : (Lexer.ofText d x.text).InFrontOf d [.ordinary] (x.text ++ []) :=
    ⟨⟨rfl, rfl, (List.append_nil _).symm⟩, rfl⟩
  obtain ⟨m, hgives, hm⟩ := hfront.gives_name hx (by rintro _ ⟨⟩)
  have hend : m.next = (.ok none, m) := Lexer.next_of_rest_eq_nil hm.rest
  have havoids : Place.Avoids (· = .punct .scope) ⟨n, [], m⟩ :=
    Place.Avoids.mono (stops_of_next_none (k := 0) hend) fun kind hkind => .inl hkind
  have hread := reads_scopedName x havoids
  rw [List.append_nil] at hread
  obtain ⟨_, s', hrun, rfl, hat⟩ := hread (.ofTextWithin d x.text n) ⟨rfl, .unread rfl hgives⟩
  exact ⟨s', hrun, hat.openAngles, peek?_of_next_none hend hat⟩

/-- Different names are written differently, since they are read back. -/
theorem eq_of_text_eq {y : ScopedName} (hx : ∀ s ∈ x.segments, IsIdentifier d s)
    (hy : ∀ s ∈ y.segments, IsIdentifier d s) (h : x.text = y.text) : x = y := by
  obtain ⟨s, hrun, -⟩ := run_scopedName_text hx 0
  obtain ⟨s', hrun', -⟩ := run_scopedName_text hy 0
  rw [h, hrun'] at hrun
  exact (Except.ok.inj (congrArg Prod.fst hrun)).symm

/-- **Scoped names are written and read back.** In every dialect, segments that are identifiers
    make a name, relative or absolute. Link by link, its scope has one segment less and starts
    where it should, and the name is one more link. What is written is read as the same name up
    to the end of the text, whatever template brackets are open, and no other segments make the
    same name or the same text. -/
theorem scopedName_readsBack (d : Dialect) (absolute : Bool) {segments : List Text}
    (hne : segments ≠ []) (hsegments : ∀ s ∈ segments, IsIdentifier d s) :
    ∃ x, ScopedName.ofSegments? absolute segments = some x ∧
      (ScopeChain.ofScope x.scope).depth = segments.length - 1 ∧
      (ScopeChain.ofScope x.scope).isAbsolute = absolute ∧
      x.text = (ScopeChain.within x.name (.ofScope x.scope)).text ∧
      (∀ n, ∃ s', run scopedName (.ofTextWithin d x.text n) = (.ok x, s') ∧ s'.openAngles = n ∧
        (run peek? s').1 = .ok none) ∧
      ∀ absolute' segments' y, (∀ s ∈ segments', IsIdentifier d s) →
        ScopedName.ofSegments? absolute' segments' = some y → y = x ∨ y.text = x.text →
        absolute' = absolute ∧ segments' = segments := by
  obtain ⟨x, hx⟩ := Option.ne_none_iff_exists'.1 (mt ScopedName.ofSegments?_eq_none_iff.1 hne)
  obtain ⟨hxs, hxa⟩ := ScopedName.segments_ofSegments? hx
  have hidentifiers : ∀ s ∈ x.segments, IsIdentifier d s := by rwa [hxs]
  refine ⟨x, hx, ?_, ?_, x.text_eq_within, run_scopedName_text hidentifiers, ?_⟩
  · rw [ScopeChain.depth_ofScope, ← hxs, ScopedName.segments, List.length_append]
    rfl
  · rw [ScopeChain.isAbsolute_ofScope]
    exact hxa
  · intro absolute' segments' y hsegments' hy hsame
    obtain ⟨hys, hya⟩ := ScopedName.segments_ofSegments? hy
    have hidentifiers' : ∀ s ∈ y.segments, IsIdentifier d s := by rwa [hys]
    have heq : y = x := hsame.elim id (eq_of_text_eq hidentifiers' hidentifiers)
    exact ⟨by rw [← hya, ← hxa, heq], by rw [← hys, ← hxs, heq]⟩

/-- A segment that is a keyword of the other dialect, in the scope of a name that starts
    globally. -/
theorem scopedName_readsBack_char :
    let x : ScopedName := ⟨⟨true, ["char".toList, ['_', '2']]⟩, ['b']⟩
    x.text = "::char::_2::b".toList ∧ (ScopeChain.ofScope x.scope).depth = 2 ∧
      (∃ s', run scopedName (.ofTextWithin .web x.text 0) = (.ok x, s') ∧ s'.openAngles = 0 ∧
        (run peek? s').1 = .ok none) ∧
      ∀ y, ScopedName.ofSegments? false ["char".toList, ['_', '2'], ['b']] = some y →
        y.text ≠ x.text := by
  intro x
  have hsegments : ∀ s ∈ ["char".toList, ['_', '2'], ['b']], IsIdentifier .web s := by decide
  obtain ⟨z, hz, hdepth, -, -, hread, hother⟩ :=
    scopedName_readsBack .web true (List.cons_ne_nil _ _) hsegments
  obtain rfl : x = z := Option.some.inj hz
  refine ⟨by decide, hdepth, hread 0, fun y hy heq => ?_⟩
  cases (hother false _ y hsegments hy (.inr heq)).1

end Parser

end IdlFrontend
