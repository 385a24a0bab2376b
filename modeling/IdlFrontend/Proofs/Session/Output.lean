import IdlFrontend.Proofs.Session.Origin
import IdlFrontend.Proofs.Session.Run

/-!
# The output of a session

Whatever a session reads and wherever its files come from, the output is written in
chunks, each from a line of one of the files, and its parts are in their places.

Results:

* `Always.bind`, `Preserves.bind`: what all results of a computation have in common,
  step by step.
* `preserves_readLine`, `preserves_readFile`: lines and files add such chunks only.
* `always_written_preprocessMarked`: so does a whole session.
* `always_wellMarked_preprocessMarked`: its output is well marked.
-/

namespace IdlFrontend

/-! ## Results of computations -/

section Always

variable {m : Type → Type} [Monad m] {α β : Type}

/-- All results of a computation have the property, whatever its effects are. Without
    effects this means that its value has it. -/
def Always (P : α → Prop) (x : m α) : Prop := ∃ y : m {a // P a}, Subtype.val <$> y = x

theorem always_id_iff {P : α → Prop} {x : Id α} : Always P x ↔ P x := by
  constructor
  · rintro ⟨y, rfl⟩
    exact y.2
  · exact fun h => ⟨(⟨x, h⟩ : {a // P a}), rfl⟩

/-- A list serves no files but its own. -/
theorem always_find_ofList {P : SourceFile → Prop} {files : List SourceFile}
    (h : ∀ f ∈ files, P f) (request : IncludeRequest) :
    Always (fun found => ∀ f ∈ found, P f) ((SourceStore.ofList files).find request) :=
  always_id_iff.2 fun found hfind => h found (List.mem_of_find?_eq_some hfind)

variable [LawfulMonad m]

theorem always_pure {P : α → Prop} {a : α} (h : P a) : Always P (pure a : m α) :=
  ⟨pure ⟨a, h⟩, map_pure _ _⟩

theorem always_true (x : m α) : Always (fun _ => True) x := by
  refine ⟨(fun a => ⟨a, trivial⟩) <$> x, ?_⟩
  rw [← comp_map]
  exact id_map x

theorem Always.mono {P Q : α → Prop} {x : m α} (hx : Always P x) (h : ∀ a, P a → Q a) :
    Always Q x := by
  obtain ⟨y, rfl⟩ := hx
  refine ⟨(fun a => ⟨a.1, h a.1 a.2⟩) <$> y, ?_⟩
  rw [← comp_map]
  rfl

theorem Always.bind {P : α → Prop} {Q : β → Prop} {x : m α} {f : α → m β} (hx : Always P x)
    (hf : ∀ a, P a → Always Q (f a)) : Always Q (x >>= f) := by
  obtain ⟨y, rfl⟩ := hx
  choose g hg using hf
  refine ⟨y >>= fun a => g a.1 a.2, ?_⟩
  rw [map_bind, bind_map_left]
  exact bind_congr fun a => hg a.1 a.2

end Always

namespace Session

variable {m : Type → Type} [Monad m] {α β : Type}

/-- A step of a session keeps a property of the session, also when it fails, and its
    result has a property. -/
def Preserves (I : Session → Prop) (Q : α → Prop) (x : PreprocessM m α) : Prop :=
  ∀ s, I s → Always (fun r => I r.2 ∧ ∀ a, r.1 = .ok a → Q a) (exec x s)

section Rules

variable [LawfulMonad m] {I : Session → Prop} {Q : α → Prop} {R : β → Prop}

theorem Preserves.bind {x : PreprocessM m α} {f : α → PreprocessM m β} (hx : Preserves I Q x)
    (hf : ∀ a, Q a → Preserves I R (f a)) : Preserves I R (x >>= f) := by
  intro s hs
  rw [exec_bind]
  refine (hx s hs).bind ?_
  rintro ⟨r, t⟩ ⟨ht, hr⟩
  cases r with
  | ok a => exact hf a (hr a rfl) t ht
  | error e => exact always_pure ⟨ht, fun _ h => by cases h⟩

theorem preserves_pure {a : α} (h : Q a) : Preserves I Q (pure a : PreprocessM m α) := by
  intro s hs
  refine always_pure ⟨hs, fun b hb => ?_⟩
  cases hb
  exact h

theorem preserves_throw (e : PreprocessError) : Preserves I Q (throw e : PreprocessM m α) := by
  intro s hs
  exact always_pure ⟨hs, fun b hb => by cases hb⟩

theorem preserves_ofExcept {r : Except PreprocessError α} (h : ∀ a, r = .ok a → Q a) :
    Preserves I Q (MonadExcept.ofExcept r : PreprocessM m α) := by
  intro s hs
  rw [exec_ofExcept]
  exact always_pure ⟨hs, h⟩

theorem preserves_get : Preserves I I (get : PreprocessM m Session) := by
  intro s hs
  rw [exec_get]
  refine always_pure ⟨hs, fun t ht => ?_⟩
  cases ht
  exact hs

theorem preserves_set {t : Session} (h : I t) :
    Preserves I (fun _ => True) (set t : PreprocessM m PUnit) := by
  intro s _
  rw [exec_set]
  exact always_pure ⟨h, fun _ _ => trivial⟩

theorem preserves_modify {f : Session → Session} (h : ∀ s, I s → I (f s)) :
    Preserves I (fun _ => True) (modify f : PreprocessM m PUnit) := by
  intro s hs
  rw [exec_modify]
  exact always_pure ⟨h s hs, fun _ _ => trivial⟩

theorem preserves_lift {x : m α} (h : Always Q x) : Preserves I Q (liftM x : PreprocessM m α) := by
  intro s hs
  rw [exec_lift]
  exact h.bind fun a ha => always_pure ⟨hs, fun b hb => by cases hb; exact ha⟩

/-- A loop over a list keeps what each of its steps keeps behind the elements before it. -/
theorem preserves_foldlM {f : β → α → PreprocessM m β} {R : List α → β → Prop} {as : List α}
    (hf : ∀ before a after, as = before ++ a :: after → ∀ b, R before b →
      Preserves I (R (before ++ [a])) (f b a))
    {b : β} (hb : R [] b) : Preserves I (R as) (as.foldlM f b) := by
  have hrest (rest : List α) : ∀ before b, as = before ++ rest → R before b →
      Preserves I (R as) (rest.foldlM f b) := by
    induction rest with
    | nil =>
      intro before b has hb
      rw [has, List.append_nil]
      exact preserves_pure hb
    | cons a rest ih =>
      intro before b has hb
      rw [List.foldlM_cons]
      exact (hf before a rest has b hb).bind fun b' hb' => ih (before ++ [a]) b' (by simp [has]) hb'
  exact hrest as [] b rfl hb

theorem Preserves.mono {P : α → Prop} {x : PreprocessM m α} (hx : Preserves I Q x)
    (h : ∀ a, Q a → P a) : Preserves I P x :=
  fun s hs => (hx s hs).mono fun _ hr => ⟨hr.1, fun a ha => h a (hr.2 a ha)⟩

/-- Nothing is asked of a step. -/
theorem preserves_true (x : PreprocessM m α) : Preserves (fun _ => True) (fun _ => True) x :=
  fun _ _ => (always_true _).mono fun _ _ => ⟨trivial, fun _ _ => trivial⟩

/-- What follows a step depends on the results that it can have only. -/
theorem Preserves.bind_eq {x : PreprocessM m α} (hx : Preserves (fun _ => True) Q x)
    {f g : α → PreprocessM m β} (h : ∀ a, Q a → f a = g a) : x >>= f = x >>= g := by
  refine funext fun s => ?_
  show exec (x >>= f) s = exec (x >>= g) s
  obtain ⟨y, hy⟩ := hx s trivial
  rw [exec_bind, exec_bind, ← hy, bind_map_left, bind_map_left]
  refine bind_congr fun r => ?_
  obtain ⟨⟨r, t⟩, -, hr⟩ := r
  cases r with
  | error e => rfl
  | ok a =>
    dsimp only
    rw [h a (hr a rfl)]

/-- Two loops are the same if their steps are, as long as what the steps keep holds. -/
theorem foldlM_congr_of_preserves {f g : β → α → PreprocessM m β} {R : List α → β → Prop}
    {as : List α} (hf : ∀ before a after, as = before ++ a :: after → ∀ b, R before b →
      Preserves (fun _ => True) (R (before ++ [a])) (f b a) ∧ g b a = f b a)
    {b : β} (hb : R [] b) : as.foldlM g b = as.foldlM f b := by
  have hrest (rest : List α) : ∀ before b, as = before ++ rest → R before b →
      rest.foldlM g b = rest.foldlM f b := by
    induction rest with
    | nil => exact fun _ _ _ _ => rfl
    | cons a rest ih =>
      intro before b has hb
      obtain ⟨hstep, hsame⟩ := hf before a rest has b hb
      rw [List.foldlM_cons, List.foldlM_cons, hsame]
      exact hstep.bind_eq fun b' hb' => ih (before ++ [a]) b' (by simp [has]) hb'
  exact hrest as [] b rfl hb

end Rules

/-! ## The steps of a session -/

section Steps

variable {given : SourceFile → Prop} {file : SourceFile}

/-- The output is written in chunks that come from the given files. -/
def Written (given : SourceFile → Prop) (out : MarkedText) : Prop :=
  ∃ chunks, out = .ofChunks chunks ∧ ∀ c ∈ chunks, c.ComesFrom given ∧ ∀ t ∈ c.lexemes, t.Proper

theorem Written.push {out : MarkedText} (h : Written given out) {c : Chunk} (hc : c.ComesFrom given)
    (hproper : ∀ t ∈ c.lexemes, t.Proper) : Written given (out.push c.file c.lexemes) := by
  obtain ⟨chunks, rfl, hchunks⟩ := h
  refine ⟨chunks ++ [c], ?_, List.forall_mem_append.2 ⟨hchunks, ?_⟩⟩
  · rw [MarkedText.ofChunks, MarkedText.ofChunks, MarkedText.pushAll_append]
    rfl
  · exact List.forall_mem_singleton.2 ⟨hc, hproper⟩

theorem Written.wellMarked {out : MarkedText} (h : Written given out) : out.WellMarked := by
  obtain ⟨chunks, rfl, hchunks⟩ := h
  exact MarkedText.wellMarked_empty.pushAll fun c hc => (hchunks c hc).2

/-- What holds of a session at all times: its output is written from the given files, and
    the bodies of its macros are whole lexemes. -/
structure Lasting (given : SourceFile → Prop) (s : Session) : Prop where
  output : Written given s.output
  macros : ∀ m ∈ s.macros.macros, ∀ t ∈ m.body, Lexeme.IsWhole t.kind t.text

/-- What holds of an open file behind the given lines: the lexemes it has collected are its
    text, and the conditionals are those that the lines open. -/
structure Reading (file : SourceFile) (groups : List (List Lexeme)) (f : OpenFile) : Prop where
  text : IsText file f.pending
  conditionals : Conditionals.Behind groups f.conditionals

/-- The open file `g` is `f` with its text written, up to name and line numbers. -/
structure Flushed (f g : OpenFile) : Prop where
  pending : g.pending = []
  conditionals : g.conditionals = f.conditionals

variable [LawfulMonad m]

theorem preserves_defineLexemes {args : List Lexeme}
    (hargs : ∀ t ∈ args, Lexeme.IsWhole t.kind t.text) (line : Nat) :
    Preserves (Lasting given) (fun _ => True) (defineLexemes args line : PreprocessM m Unit) := by
  refine preserves_get.bind fun s hs => ?_
  refine (preserves_ofExcept fun _ hdefine =>
    MacroTable.define_forall rfl hs.macros hargs hdefine).bind fun macros hmacros => ?_
  exact preserves_set ⟨hs.output, hmacros⟩

theorem preserves_defineText (cs : Text) :
    Preserves (Lasting given) (fun _ => True) (defineText cs : PreprocessM m Unit) :=
  preserves_defineLexemes Lexeme.isWhole_of_mem_scan 0

theorem preserves_flush (hgiven : given file) {f : OpenFile} (hf : IsText file f.pending) :
    Preserves (Lasting given) (Flushed f) (flush f : PreprocessM m OpenFile) := by
  refine preserves_get.bind fun s hs => ?_
  refine (preserves_ofExcept fun _ hexpand => hexpand).bind fun us hus => ?_
  have hchunk : (⟨f.name, us, false⟩ : Chunk).ComesFrom given :=
    ⟨file, hgiven, by exact ⟨s.macros, f.pending, hf, hus⟩⟩
  have hproper := proper_expand hs.macros hf.proper hus
  refine (preserves_set ⟨hs.output.push hchunk hproper, hs.macros⟩).bind fun _ _ => ?_
  exact preserves_pure ⟨rfl, rfl⟩

theorem preserves_includeTarget {I : Session → Prop} (args : List Lexeme) (line : Nat) :
    Preserves I (fun _ => True)
      (includeTarget args line : PreprocessM m (Text × Bool)) := by
  unfold includeTarget
  split
  · exact preserves_pure trivial
  · refine preserves_get.bind fun s _ => ?_
    refine (preserves_ofExcept (Q := fun _ => True) fun _ _ => trivial).bind fun expanded _ => ?_
    split
    · exact preserves_pure trivial
    · exact preserves_throw _

theorem preserves_changeLine (hgiven : given file) {f : OpenFile} (hf : IsText file f.pending)
    (target : List Lexeme) (line : Nat) :
    Preserves (Lasting given) (Flushed f) (changeLine f target line : PreprocessM m OpenFile) := by
  unfold changeLine
  split
  · exact preserves_throw _
  · refine (preserves_flush hgiven hf).bind fun g hg => ?_
    dsimp only
    split
    · split
      · exact preserves_pure ⟨hg.pending, hg.conditionals⟩
      · exact (preserves_defineText _).bind fun _ _ => preserves_pure ⟨hg.pending, hg.conditionals⟩
    · exact preserves_throw _

variable {enter : Text → Bool → Nat → PreprocessM m Unit}

theorem preserves_obey
    (henter : ∀ name quoted line,
      Preserves (Lasting given) (fun _ => True) (enter name quoted line))
    (hgiven : given file) {f : OpenFile} (hf : IsText file f.pending) {group : List Lexeme}
    {d : DirectiveLine} {name : CommandName} (hargs : ∀ t ∈ d.args, Lexeme.IsWhole t.kind t.text)
    (hpragma : name = .pragma → IsPragmaLine file (group.filter Lexeme.staysInPragma)) :
    Preserves (Lasting given) (Flushed f) (obey enter f group d name) := by
  match name with
  | .define =>
    refine (preserves_flush hgiven hf).bind fun g hg => ?_
    exact (preserves_defineLexemes hargs _).bind fun _ _ => preserves_pure hg
  | .undef =>
    refine (preserves_flush hgiven hf).bind fun g hg => ?_
    split
    · exact preserves_throw _
    · have herase (name : Text) : Preserves (Lasting given) (fun _ => True)
          (modify fun s => { s with macros := s.macros.erase name } : PreprocessM m PUnit) :=
        preserves_modify fun s hs =>
          ⟨hs.output, fun m hm => hs.macros m (List.mem_filter.1 hm).1⟩
      exact (herase _).bind fun _ _ => preserves_pure hg
  | .include =>
    refine (preserves_flush hgiven hf).bind fun g hg => ?_
    refine (preserves_includeTarget _ _).bind fun target _ => ?_
    refine (henter _ _ _).bind fun _ _ => ?_
    exact (preserves_defineText _).bind fun _ _ => preserves_pure hg
  | .pragma =>
    refine (preserves_flush hgiven hf).bind fun g hg => ?_
    have hline := hpragma rfl
    have hchunk : (⟨g.name, group.filter Lexeme.staysInPragma, true⟩ : Chunk).ComesFrom given :=
      ⟨file, hgiven, hline⟩
    exact (preserves_modify fun s hs => ⟨hs.output.push hchunk hline.proper, hs.macros⟩).bind
      fun _ _ => preserves_pure hg
  | .line => exact preserves_changeLine hgiven hf _ _

theorem preserves_readLine
    (henter : ∀ name quoted line,
      Preserves (Lasting given) (fun _ => True) (enter name quoted line))
    (hgiven : given file) {before after : List (List Lexeme)} {group : List Lexeme}
    (hlines : sourceLines file.contents = before ++ group :: after) {f : OpenFile}
    (hf : Reading file before f) :
    Preserves (Lasting given) (Reading file (before ++ [group])) (readLine enter f group) := by
  have hmem : group ∈ sourceLines file.contents := by
    rw [hlines]
    simp
  have hproper := proper_renumber hmem f.shift
  unfold readLine
  dsimp only
  split
  next hnone =>
    have hother : ∀ d ∈ directive? (renumber f.shift group), ∀ branch,
        d.name? ≠ some (.branch branch) := by simp [hnone]
    have hbehind := hf.conditionals.other hother
    split
    next hkept =>
      have hline : IsKeptLine file group :=
        ⟨before, after, f.conditionals, hlines, hf.conditionals, hkept⟩
      exact preserves_pure ⟨hf.text.line hline hnone, hbehind⟩
    · exact preserves_pure ⟨hf.text, hbehind⟩
  next d hd =>
    have hend {g : OpenFile} (htext : IsText file g.pending)
        (hbehind : Conditionals.Behind (before ++ [group]) g.conditionals) :
        Preserves (Lasting given) (Reading file (before ++ [group]))
          (pure { g with pending := g.pending ++ lineBreak (renumber f.shift group) } :
            PreprocessM m OpenFile) :=
      preserves_pure ⟨htext.lineBreak hmem (by simp [hd]), hbehind⟩
    split
    next name hname =>
      refine preserves_get.bind fun s _ => ?_
      refine (preserves_ofExcept fun _ hbranch => hbranch).bind fun conditionals hbranch => ?_
      refine Preserves.bind (Q := fun g => g = { f with conditionals }) (preserves_pure rfl) ?_
      rintro _ rfl
      exact hend hf.text (hf.conditionals.branch hd hname hbranch)
    next name hname =>
      have hother : ∀ d' ∈ directive? (renumber f.shift group), ∀ branch,
          d'.name? ≠ some (.branch branch) := by
        rw [hd]
        rintro _ ⟨⟩ branch hbranch
        rw [hname] at hbranch
        cases hbranch
      have hbehind := hf.conditionals.other hother
      split
      next hkept =>
        have hline : IsKeptLine file group :=
          ⟨before, after, f.conditionals, hlines, hf.conditionals, hkept⟩
        have hpragma (h : name = .pragma) :
            IsPragmaLine file ((renumber f.shift group).filter Lexeme.staysInPragma) :=
          ⟨group, f.shift, d, hline, hd, by rw [hname, h], rfl⟩
        have hobey := preserves_obey henter hgiven hf.text
          (fun t ht => (hproper t (mem_of_mem_args hd ht)).1) hpragma
        refine hobey.bind fun g hg => ?_
        refine hend ?_ ?_
        · rw [hg.pending]
          exact .nil
        · rw [hg.conditionals]
          exact hbehind
      · exact (preserves_pure rfl).bind fun g (hg : f = g) => hg ▸ hend hf.text hbehind
    next hname =>
      have hother : ∀ d' ∈ directive? (renumber f.shift group), ∀ branch,
          d'.name? ≠ some (.branch branch) := by
        rw [hd]
        rintro _ ⟨⟩ branch hbranch
        rw [hname] at hbranch
        cases hbranch
      exact (preserves_pure rfl).bind fun g (hg : f = g) =>
        hg ▸ hend hf.text (hf.conditionals.other hother)

theorem preserves_enterFile {I : Session → Prop} {store : SourceStore m}
    {read : SourceFile → PreprocessM m Unit}
    (hstore : ∀ request, Always (fun found => ∀ file ∈ found, given file) (store.find request))
    (hread : ∀ found, given found → Preserves I (fun _ => True) (read found)) (stack : List Text)
    (name : Text) (quoted : Bool) (line : Nat) :
    Preserves I (fun _ => True) (enterFile store stack read name quoted line) := by
  refine (preserves_lift (hstore _)).bind fun found hfound => ?_
  split
  · exact preserves_throw _
  · split
    · exact preserves_throw _
    · exact hread _ (hfound _ rfl)

theorem preserves_readFile {store : SourceStore m}
    (hstore : ∀ request, Always (fun found => ∀ file ∈ found, given file) (store.find request))
    (depth : Nat) (around : List Text) (hgiven : given file) :
    Preserves (Lasting given) (fun _ => True) (readFile store depth around file) := by
  induction depth generalizing around file with
  | zero => exact preserves_pure trivial
  | succ depth ih =>
    have hinclude :=
      preserves_enterFile hstore (fun found hfound => ih (file.name :: around) hfound)
        (file.name :: around)
    refine (preserves_defineText _).bind fun _ _ => ?_
    have hlines := preserves_foldlM (R := Reading file) (b := { name := file.name })
      (fun before group after heq f hf => preserves_readLine hinclude hgiven heq hf)
      ⟨.nil, .start⟩
    refine hlines.bind fun f hf => ?_
    refine (preserves_flush hgiven hf.text).bind fun g _ => ?_
    exact preserves_ofExcept fun _ _ => trivial

/-- Whatever the sources are, a session writes what is kept of pragma lines, and the
    expansion of text, of its file and of those that the store gives out. -/
theorem always_written_preprocessMarked {store : SourceStore m} (defines : List Predefinition)
    (hgiven : given file)
    (hstore : ∀ request, Always (fun found => ∀ file ∈ found, given file) (store.find request)) :
    Always (fun r => ∀ out, r = .ok out → Written given out)
      (preprocessMarked store defines file) := by
  have hdefines : Preserves (Lasting given) (fun _ => True)
      (defines.forM Session.define : PreprocessM m Unit) := by
    induction defines with
    | nil => exact preserves_pure trivial
    | cons d defines ih => exact (preserves_defineText _).bind fun _ _ => ih
  have hwork := hdefines.bind fun _ _ => preserves_readFile hstore (store.capacity + 1) [] hgiven
  have hstart : Lasting given {} := ⟨⟨[], rfl, List.forall_mem_nil _⟩, List.forall_mem_nil _⟩
  refine (hwork {} hstart).bind ?_
  rintro ⟨r, s⟩ ⟨hs, -⟩
  refine always_pure fun out hout => ?_
  cases r with
  | error e => cases hout
  | ok =>
    cases hout
    exact hs.output

/-- Whatever the sources are, the output of a session has its parts in their places. -/
theorem always_wellMarked_preprocessMarked (store : SourceStore m) (defines : List Predefinition)
    (file : SourceFile) :
    Always (fun r => ∀ out, r = .ok out → out.WellMarked)
      (preprocessMarked store defines file) := by
  have hwritten : Always (fun r => ∀ out, r = .ok out → Written (fun _ => True) out)
      (preprocessMarked store defines file) :=
    always_written_preprocessMarked defines trivial fun request =>
      (always_true (store.find request)).mono fun _ _ _ _ => trivial
  exact hwritten.mono fun r hr out hout => (hr out hout).wellMarked

end Steps

end Session

end IdlFrontend
