import IdlFrontend.Frontend
import IdlFrontend.Proofs.Lexer.Stack
import IdlFrontend.Proofs.Parser.Course

/-!
# What a parser does to its stream

A parser changes its stream by a few acts: it calls the lexer for the next token, takes a
token or half of one, counts template brackets, enters a mode and takes a pragma. Its run is
put together from acts, also where it fails, and each of them starts from the stream that the
one before has left. What holds of the stream at all times is then shown act by act.

Results:

* `Executes.run_eq`, `Executes.history`: the acts of a run lead from its start to its end.
* `Behaves.bind`, `behaves_recurse`: parsers one after the other, and within themselves.
* `behavesAt_afterTake`, `behavesAt_countAngles`, `behavesAt_push`: what single acts need.
-/

namespace IdlFrontend.Parser

/-! ## Acts -/

/-- What a parser does to its stream at once. -/
inductive Act where
  /-- The lexer is called for the next token, and reads these stretches. -/
  | read (ss : List Step)
  /-- The token that is ahead is taken. -/
  | take
  /-- The first half of the double angle that is ahead is taken. -/
  | takeHalf
  /-- As many template brackets count as open. -/
  | countAngles (n : Nat)
  /-- The lexer enters a mode. -/
  | enter (mode : Mode)
  /-- The pragma of the given name is taken, if there is one. -/
  | takePragma (name : Text)
deriving DecidableEq, Repr

/-- The streams before and behind an act. -/
inductive Act.Does : Act → TokenStream → TokenStream → Prop
  | found {s : TokenStream} {ss : List Step} {t? : Option Token} {l : Lexer}
      (hahead : s.ahead = none)
    (hcall : Lexer.Call s.lexer ss (.ok t?, l)) :
    Does (.read ss) s { s with lexer := l, ahead := t? }
  | stuck {s : TokenStream} {ss : List Step} {e : LexicalError} {l : Lexer}
      (hahead : s.ahead = none)
    (hcall : Lexer.Call s.lexer ss (.error e, l)) : Does (.read ss) s { s with lexer := l }
  | take {s : TokenStream} {t : Token} (hahead : s.ahead = some t) : Does .take s (afterTake t s)
  | takeHalf {s : TokenStream} {t : Token} (hahead : s.ahead = some t)
      (hkind : t.kind = .punct .shiftRight) :
    Does .takeHalf s (afterHalf t s)
  | countAngles (s : TokenStream) (n : Nat) : Does (.countAngles n) s { s with openAngles := n }
  | enter (s : TokenStream) (mode : Mode) :
      Does (.enter mode) s { s with lexer := s.lexer.push mode }
  | takePragma (s : TokenStream) (name : Text) :
    Does (.takePragma name) s { s with lexer := (s.lexer.takePragma name).2 }

/-- An act in a run. -/
structure Moment where
  before : TokenStream
  act : Act
  after : TokenStream
deriving DecidableEq, Repr

/-- A run of a parser from a stream, with its acts, its result and the stream behind it. The
    stream changes by acts only. -/
inductive Executes :
    {α : Type} → Parser α → TokenStream → List Moment → Except ParseError α × TokenStream → Prop
  | pure {α : Type} (a : α) (s : TokenStream) : Executes (pure a) s [] (.ok a, s)
  | throw {α : Type} (e : ParseError) (s : TokenStream) :
      Executes (throw e : Parser α) s [] (.error e, s)
  | get (s : TokenStream) : Executes get s [] (.ok s, s)
  | set {act : Act} {s t : TokenStream} (h : act.Does s t) :
      Executes (set t) s [⟨s, act, t⟩] (.ok ⟨⟩, t)
  | modify {act : Act} {f : TokenStream → TokenStream} {s : TokenStream} (h : act.Does s (f s)) :
    Executes (modify f) s [⟨s, act, f s⟩] (.ok ⟨⟩, f s)
  | bind {α β : Type} {p : Parser α} {f : α → Parser β} {s t : TokenStream} {a : α}
      {ms ns : List Moment}
    {r : Except ParseError β × TokenStream} (hp : Executes p s ms (.ok a, t))
    (hf : Executes (f a) t ns r) :
    Executes (p >>= f) s (ms ++ ns) r
  | abort {α β : Type} {p : Parser α} {f : α → Parser β} {s t : TokenStream} {e : ParseError}
      {ms : List Moment}
    (hp : Executes p s ms (.error e, t)) : Executes (p >>= f) s ms (.error e, t)

/-- Acts one after the other that lead from one stream to another. -/
def History : TokenStream → List Moment → TokenStream → Prop
  | s, [], t => s = t
  | s, m :: ms, t => m.before = s ∧ m.act.Does s m.after ∧ History m.after ms t

variable {α β ι : Type} {p q : Parser α} {s t u : TokenStream} {ms ns : List Moment} {cs : Text}

theorem Executes.run_eq {r : Except ParseError α × TokenStream} (h : Executes p s ms r) :
    p.run s = r := by
  induction h with
  | pure | throw | get | set | modify => rfl
  | bind _ _ hp hf =>
    rw [run_bind, hp]
    exact hf
  | abort _ hp => rw [run_bind, hp]

theorem History.append (h : History s ms t) (h' : History t ns u) : History s (ms ++ ns) u := by
  induction ms generalizing s with
  | nil =>
    cases h
    exact h'
  | cons m ms ih => exact ⟨h.1, h.2.1, ih h.2.2⟩

theorem Executes.history {r : Except ParseError α × TokenStream} (h : Executes p s ms r) :
    History s ms r.2 := by
  induction h with
  | pure | throw | get => rfl
  | set h | modify h => exact ⟨rfl, h, rfl⟩
  | bind _ _ hp hf => exact hp.append hf
  | abort _ hp => exact hp

/-! ## What holds at all times -/

/-- A stream of a text at any time: the lexer is lawful, it has the rest of the text to read, and
    its mode fits the token that is ahead. -/
structure Orderly (cs : Text) (s : TokenStream) : Prop where
  lawful : s.lexer.Lawful
  rest : s.lexer.rest <:+ cs
  mode : ∀ t, s.ahead = some t → ∀ mode, Lexer.knownMode? t.kind = some mode → s.lexer.mode = mode
  bracket : ∀ t, s.ahead = some t → t.kind = .punct .openBracket → '[' :: s.lexer.rest <:+ cs

/-- The stack is flat around an act and behind each stretch that it reads. The mode of property
    lists alone is entered: from the ordinary mode, with no token ahead and directly behind a
    bracket. -/
structure Moment.Right (cs : Text) (m : Moment) : Prop where
  before : m.before.lexer.Flat
  after : m.after.lexer.Flat
  stretches : ∀ ss, m.act = .read ss → ∀ step ∈ ss, step.next.Flat
  entered : ∀ mode, m.act = .enter mode → mode = .properties ∧ m.before.lexer.stack = [.ordinary] ∧
    m.before.ahead = none ∧ '[' :: m.before.lexer.rest <:+ cs

theorem orderly_ofText (dialect : Dialect) (cs : Text) : Orderly cs (.ofText dialect cs) :=
  ⟨Lexer.lawful_of_ordinary rfl rfl, List.suffix_rfl, nofun, nofun⟩

/-- From the stream of a text, the parser does only what is right, and leaves one. -/
def BehavesAt (cs : Text) (s : TokenStream) (p : Parser α) : Prop :=
  Orderly cs s → ∃ ms, Executes p s ms (p.run s) ∧ (∀ m ∈ ms, m.Right cs) ∧ Orderly cs (p.run s).2

/-- Whatever the stream of the text is, the parser does only what is right. -/
class Behaves (cs : Text) (p : Parser α) : Prop where
  behavesAt : ∀ s, BehavesAt cs s p

theorem Orderly.of_run [Behaves cs p] {r : Except ParseError α} (hs : Orderly cs s)
    (h : p.run s = (r, t)) :
    Orderly cs t := by
  obtain ⟨_, -, -, ht⟩ := Behaves.behavesAt (p := p) s hs
  rwa [h] at ht

/-! ## Building blocks -/

theorem behavesAt_of_executes {r : Except ParseError α × TokenStream} (h : Executes p s ms r)
    (hright : Orderly cs s → (∀ m ∈ ms, m.Right cs) ∧ Orderly cs r.2) : BehavesAt cs s p := by
  intro hs
  rw [h.run_eq]
  exact ⟨ms, h, hright hs⟩

theorem BehavesAt.bind {f : α → Parser β} (hp : BehavesAt cs s p)
    (hf : ∀ a t, p.run s = (.ok a, t) → BehavesAt cs t (f a)) : BehavesAt cs s (p >>= f) := by
  intro hs
  obtain ⟨ms, hexec, hms, ht⟩ := hp hs
  rw [run_bind]
  rcases hpr : p.run s with ⟨e | a, t⟩
  · rw [hpr] at hexec ht
    exact ⟨ms, .abort hexec, hms, ht⟩
  · rw [hpr] at hexec ht
    obtain ⟨ns, hexec', hns, hu⟩ := hf a t hpr ht
    exact ⟨ms ++ ns, .bind hexec hexec', List.forall_mem_append.2 ⟨hms, hns⟩, hu⟩

theorem Behaves.bind {f : α → Parser β} (hp : Behaves cs p) (hf : ∀ a, Behaves cs (f a)) :
    Behaves cs (p >>= f) :=
  ⟨fun s => (hp.behavesAt s).bind fun a t _ => (hf a).behavesAt t⟩

instance {f : α → Parser β} [Behaves cs p] [∀ a, Behaves cs (f a)] : Behaves cs (p >>= f) :=
  .bind inferInstance inferInstance

instance (a : α) : Behaves cs (pure a : Parser α) :=
  ⟨fun s => behavesAt_of_executes (.pure a s) fun hs => ⟨List.forall_mem_nil _, hs⟩⟩

instance (e : ParseError) : Behaves cs (throw e : Parser α) :=
  ⟨fun s => behavesAt_of_executes (.throw e s) fun hs => ⟨List.forall_mem_nil _, hs⟩⟩

instance : Behaves cs (get : Parser TokenStream) :=
  ⟨fun s => behavesAt_of_executes (.get s) fun hs => ⟨List.forall_mem_nil _, hs⟩⟩

instance {f : α → β} [Behaves cs p] : Behaves cs (f <$> p) := by
  rw [← bind_pure_comp]
  infer_instance

instance {c : Prop} [Decidable c] [Behaves cs p] [Behaves cs q] :
    Behaves cs (if c then p else q) := by
  split <;> infer_instance

theorem behavesAt_modify {act : Act} {f : TokenStream → TokenStream} (h : act.Does s (f s))
    (hright : Orderly cs s → Moment.Right cs ⟨s, act, f s⟩ ∧ Orderly cs (f s)) :
    BehavesAt cs s (modify f) :=
  behavesAt_of_executes (.modify h) fun hs =>
    ⟨List.forall_mem_singleton.2 (hright hs).1, (hright hs).2⟩

theorem behavesAt_set {act : Act} (h : act.Does s t)
    (hright : Orderly cs s → Moment.Right cs ⟨s, act, t⟩ ∧ Orderly cs t) : BehavesAt cs s (set t) :=
  behavesAt_of_executes (.set h) fun hs =>
    ⟨List.forall_mem_singleton.2 (hright hs).1, (hright hs).2⟩

/-- An act that calls no lexer and enters no mode. -/
theorem right_of_orderly {act : Act} (hs : Orderly cs s) (ht : Orderly cs t)
    (hread : ∀ ss, act ≠ .read ss) (henter : ∀ mode, act ≠ .enter mode) :
    Moment.Right cs ⟨s, act, t⟩ :=
  ⟨hs.lawful.flat, ht.lawful.flat, fun ss h => absurd h (hread ss), fun mode h => absurd h
    (henter mode)⟩

/-! ## Tokens -/

/-- The lexer is called for the next token. -/
theorem orderly_of_call {ss : List Step} {t? : Option Token} {l : Lexer} (hs : Orderly cs s)
    (hcall : Lexer.Call s.lexer ss (.ok t?, l)) :
    Orderly cs { s with lexer := l, ahead := t? } := by
  refine ⟨(Lexer.lawful_of_call hcall hs.lawful).2, (Lexer.rest_suffix_of_call hcall).trans
    hs.rest, ?_, ?_⟩
  · rintro t rfl mode hmode
    exact Lexer.modeBehind_of_call hcall hs.lawful hmode
  · rintro t rfl ht
    exact (Lexer.suffix_of_openBracket hcall ht).trans hs.rest

instance : Behaves cs peek? := by
  refine ⟨fun s => ?_⟩
  unfold peek?
  refine BehavesAt.bind (Behaves.behavesAt s) fun _ _ hget => ?_
  cases hget
  split
  · exact Behaves.behavesAt s
  next hahead =>
    have hcall := Lexer.call_next s.lexer
    have hread {r : Except LexicalError (Option Token) × Lexer} {t : TokenStream}
        (hcall : Lexer.Call s.lexer s.lexer.stretches r) (hs : Orderly cs s) (ht : Orderly cs t) :
        Moment.Right cs ⟨s, .read s.lexer.stretches, t⟩ := by
      refine ⟨hs.lawful.flat, ht.lawful.flat, ?_, nofun⟩
      rintro _ ⟨⟩ step hstep
      exact ((Lexer.lawful_of_call hcall hs.lawful).1 step hstep).flat
    split
    next t? l hnext =>
      rw [hnext] at hcall
      refine BehavesAt.bind (behavesAt_set (.found hahead hcall) fun hs => ?_) fun _ t _ =>
        Behaves.behavesAt t
      exact ⟨hread hcall hs (orderly_of_call hs hcall), orderly_of_call hs hcall⟩
    next e l hnext =>
      rw [hnext] at hcall
      have hnone (t : Token) : s.ahead ≠ some t := fun ht => by cases hahead.symm.trans ht
      have hstuck (hs : Orderly cs s) : Orderly cs { s with lexer := l } :=
        ⟨(Lexer.lawful_of_call hcall hs.lawful).2, (Lexer.rest_suffix_of_call hcall).trans hs.rest,
          fun t ht => absurd ht (hnone t), fun t ht => absurd ht (hnone t)⟩
      refine BehavesAt.bind (behavesAt_set (.stuck hahead hcall) fun hs => ?_) fun _ t _ =>
        Behaves.behavesAt t
      exact ⟨hread hcall hs (hstuck hs), hstuck hs⟩

instance : Behaves cs (failAtEnd : Parser α) := inferInstanceAs (Behaves cs (throw _ : Parser α))

instance (fault : SyntaxFault) : Behaves cs (fail fault : Parser α) :=
  inferInstanceAs (Behaves cs (get >>= fun _ => (throw _ : Parser α)))

instance : Behaves cs peek := by
  unfold peek
  refine .bind inferInstance fun t? => ?_
  split <;> infer_instance

theorem run_peek?_of_peek {t : Token} (h : run peek s = (.ok t, u)) :
    run peek? s = (.ok (some t), u) := by
  unfold peek at h
  obtain ⟨t?, v, hpeek, hrest⟩ := exists_of_run_bind h
  cases t? with
  | none => cases hrest
  | some t =>
    cases hrest
    exact hpeek

theorem ahead_of_run_peek? {t? : Option Token} (h : run peek? s = (.ok t?, u)) : u.ahead = t? := by
  have hahead := ahead_of_peek? (s := s) (t := t?) (by rw [h])
  rwa [h] at hahead

theorem ahead_of_run_peek {t : Token} (h : run peek s = (.ok t, u)) : u.ahead = some t :=
  ahead_of_run_peek? (run_peek?_of_peek h)

theorem orderly_afterTake (t : Token) (hs : Orderly cs s) : Orderly cs (afterTake t s) :=
  ⟨hs.lawful, hs.rest, nofun, nofun⟩

theorem behavesAt_afterTake {t : Token} (hahead : s.ahead = some t) :
    BehavesAt cs s (modify (afterTake t)) :=
  behavesAt_modify (.take hahead) fun hs =>
    ⟨right_of_orderly hs (orderly_afterTake t hs) nofun nofun, orderly_afterTake t hs⟩

instance : Behaves cs take :=
  ⟨fun s => (Behaves.behavesAt s).bind fun _ _ hpeek =>
    (behavesAt_afterTake (ahead_of_run_peek hpeek)).bind fun _ u _ => Behaves.behavesAt u⟩

instance : Behaves cs kind? := inferInstanceAs (Behaves cs (peek? >>= fun _ => pure _))

instance (kind : TokenKind) : Behaves cs (isNext kind) :=
  inferInstanceAs (Behaves cs (kind? >>= fun _ => pure _))

instance (kind : TokenKind) : Behaves cs (accept kind) := by
  unfold accept
  infer_instance

instance (expected : Expectation) : Behaves cs (unexpected expected : Parser α) := by
  unfold unexpected
  infer_instance

instance (kind : TokenKind) (place : String) : Behaves cs (expect kind place) := by
  unfold expect
  infer_instance

instance (p : Punct) : Behaves cs (isPunct p) := inferInstanceAs (Behaves cs (isNext _))

instance (p : Punct) : Behaves cs (acceptPunct p) := inferInstanceAs (Behaves cs (accept _))

instance (p : Punct) (place : String) : Behaves cs (expectPunct p place) :=
  inferInstanceAs (Behaves cs ((fun _ => ()) <$> expect _ _))

instance (k : Keyword) : Behaves cs (isKeyword k) := inferInstanceAs (Behaves cs (isNext _))

instance (k : Keyword) : Behaves cs (acceptKeyword k) := inferInstanceAs (Behaves cs (accept _))

instance (k : Keyword) (place : String) : Behaves cs (expectKeyword k place) :=
  inferInstanceAs (Behaves cs ((fun _ => ()) <$> expect _ _))

instance (place : String) : Behaves cs (identifier place) := by
  unfold identifier
  infer_instance

instance : Behaves cs identifier? := by
  unfold identifier?
  infer_instance

/-! ## Template brackets -/

theorem orderly_countAngles (n : Nat) (hs : Orderly cs s) : Orderly cs { s with openAngles := n } :=
  ⟨hs.lawful, hs.rest, hs.mode, hs.bracket⟩

theorem behavesAt_countAngles {f : TokenStream → TokenStream} (n : Nat)
    (hf : f s = { s with openAngles := n }) :
    BehavesAt cs s (modify f) := by
  have hdoes : Act.Does (.countAngles n) s (f s) := by
    rw [hf]
    exact .countAngles s n
  refine behavesAt_modify hdoes fun hs => ?_
  rw [hf]
  exact ⟨right_of_orderly hs (orderly_countAngles n hs) nofun nofun, orderly_countAngles n hs⟩

instance : Behaves cs enterAngle := ⟨fun s => behavesAt_countAngles (s.openAngles + 1) rfl⟩

theorem orderly_afterHalf (t : Token) (hs : Orderly cs s) : Orderly cs (afterHalf t s) := by
  refine ⟨hs.lawful, hs.rest, ?_, ?_⟩
  · rintro _ ⟨⟩ mode hmode
    cases hmode
  · rintro _ ⟨⟩ ht
    cases ht

instance (place : String) : Behaves cs (closeAngle place) := by
  refine ⟨fun s => (behavesAt_countAngles (s.openAngles - 1) rfl).bind fun _ u _ => ?_⟩
  refine (Behaves.behavesAt u).bind fun t? v hpeek => ?_
  have hahead := ahead_of_run_peek? hpeek
  split
  next t =>
    split
    next hkind =>
      refine behavesAt_modify (.takeHalf hahead hkind) fun hs => ?_
      exact ⟨right_of_orderly hs (orderly_afterHalf t hs) nofun nofun, orderly_afterHalf t hs⟩
    · exact Behaves.behavesAt v
  · exact Behaves.behavesAt v

instance [Behaves cs p] : Behaves cs (shielded p) := by
  refine ⟨fun s => (Behaves.behavesAt s).bind fun _ _ hget => ?_⟩
  cases hget
  refine (behavesAt_countAngles 0 rfl).bind fun _ t _ => ?_
  refine (Behaves.behavesAt t).bind fun a u _ => ?_
  exact (behavesAt_countAngles s.openAngles rfl).bind fun _ v _ => Behaves.behavesAt v

/-! ## Modes and pragmas -/

/-- Behind an opening bracket that was taken, the mode of property lists may be entered. -/
theorem behavesAt_push {t : Token} (hs : Orderly cs s) (hahead : s.ahead = some t)
    (ht : t.kind = .punct .openBracket) :
    BehavesAt cs (afterTake t s)
      (modify fun s => { s with lexer := s.lexer.push .properties }) := by
  have hordinary : s.lexer.mode = .ordinary := hs.mode t hahead _ (by rw [ht]; rfl)
  refine behavesAt_modify (.enter (afterTake t s) .properties) fun htaken => ?_
  have hpushed :
      Orderly cs { afterTake t s with lexer := (afterTake t s).lexer.push .properties } :=
    ⟨hs.lawful.push_properties hordinary, hs.rest, nofun, nofun⟩
  refine ⟨⟨htaken.lawful.flat, hpushed.lawful.flat, nofun, ?_⟩, hpushed⟩
  rintro _ ⟨⟩
  have hstack := Lexer.stack_eq_singleton_iff.2 ⟨hordinary, hs.lawful.below_eq_nil hordinary⟩
  exact ⟨rfl, hstack, rfl, hs.bracket t hahead ht⟩

theorem behavesAt_takePragma (name : Text) :
    BehavesAt cs s (set { s with lexer := (s.lexer.takePragma name).2 }) := by
  refine behavesAt_set (.takePragma s name) fun hs => ?_
  have ht : Orderly cs { s with lexer := (s.lexer.takePragma name).2 } := by
    refine ⟨hs.lawful.takePragma name, ?_, fun t ht mode hmode => ?_, fun t ht hkind => ?_⟩
    · rw [Lexer.rest_takePragma]
      exact hs.rest
    · rw [Lexer.mode_takePragma]
      exact hs.mode t ht mode hmode
    · rw [Lexer.rest_takePragma]
      exact hs.bracket t ht hkind
  exact ⟨right_of_orderly hs ht nofun nofun, ht⟩

/-! ## Recursion -/

theorem behaves_unfold {body : (ι → Parser α) → ι → Parser α}
    (hbody : ∀ more, (∀ j, Behaves cs (more j)) → ∀ i, Behaves cs (body more i))
    (depth : Nat) (i : ι) :
    Behaves cs (unfold body depth i) := by
  induction depth generalizing i with
  | zero => exact inferInstanceAs (Behaves cs (failAtEnd : Parser α))
  | succ depth ih => exact hbody _ ih i

/-- If a round behaves where the rounds inside it do, so does the recursion. -/
theorem behaves_recurse {body : (ι → Parser α) → ι → Parser α}
    (hbody : ∀ more, (∀ j, Behaves cs (more j)) → ∀ i, Behaves cs (body more i)) (i : ι) :
    Behaves cs (recurse body i) :=
  .bind inferInstance fun s => behaves_unfold hbody (s.unread + 1) i

instance {item : Parser (Option α)} [Behaves cs item] : Behaves cs (many item) := by
  refine behaves_recurse (fun more hmore _ => .bind inferInstance fun a? => ?_) ()
  split <;> infer_instance

instance {item : Parser α} [Behaves cs item] (close : Punct) :
    Behaves cs (itemUntil close item) := by
  unfold itemUntil
  infer_instance

instance {item : Parser α} [Behaves cs item] (close : Punct) :
    Behaves cs (manyUntil close item) := by
  unfold manyUntil
  infer_instance

instance {item : Parser α} [Behaves cs item] : Behaves cs (itemAfterComma item) := by
  unfold itemAfterComma
  infer_instance

instance {item : Parser α} [Behaves cs item] : Behaves cs (commaMore item) := by
  unfold commaMore
  infer_instance

instance {item : Parser α} [Behaves cs item] : Behaves cs (commaList item) := by
  unfold commaList
  infer_instance

end IdlFrontend.Parser
