import IdlFrontend.Proofs.Macro.ObjectLike
import IdlFrontend.Proofs.Session.Relabel

/-!
# Macros in other places

Two tables resemble each other if they have the same macros but for `__FILE__`, whose bodies
may stand on other lines. Lexemes that ask neither for the name of their file nor for their
line come to the same with both.

Results:

* `Resembles.expand`: they are expanded to the same lexemes, line numbers apart.
* `Resembles.define`, `Resembles.erase`: tables that resemble each other still do when a
  macro has been defined or removed.
-/

namespace IdlFrontend

namespace Lexeme

/-! ## Lexemes without line numbers -/

variable {t : Lexeme} {ts us : List Lexeme}

theorem exists_of_restamp_cons (h : restamp 0 (t :: ts) = restamp 0 us) :
    ∃ u us', us = u :: us' ∧ u.kind = t.kind ∧ u.text = t.text ∧ restamp 0 ts = restamp 0 us' := by
  cases us with
  | nil => cases h
  | cons u us =>
    obtain ⟨hhead, htail⟩ := List.cons.inj h
    obtain ⟨hkind, htext, -⟩ := Lexeme.mk.inj hhead
    exact ⟨u, us, rfl, hkind.symm, htext.symm, htail⟩

theorem restamp_append (line : Nat) (ts us : List Lexeme) :
    restamp line (ts ++ us) = restamp line ts ++ restamp line us := List.map_append

theorem restamp_restamp (k l : Nat) (ts : List Lexeme) : restamp k (restamp l ts) = restamp k ts :=
  List.map_map

theorem restamp_flatMap {f g : Lexeme → List Lexeme} (h : restamp 0 ts = restamp 0 us)
    (hfg : ∀ t ∈ ts, ∀ u : Lexeme, u.kind = t.kind → u.text = t.text → restamp 0 (f t) = restamp
      0 (g u)) :
    restamp 0 (ts.flatMap f) = restamp 0 (us.flatMap g) := by
  induction ts generalizing us with
  | nil =>
    obtain rfl : us = [] := List.map_eq_nil_iff.1 h.symm
    rfl
  | cons t ts ih =>
    obtain ⟨u, us, rfl, hkind, htext, hrest⟩ := exists_of_restamp_cons h
    rw [List.forall_mem_cons] at hfg
    rw [List.flatMap_cons, List.flatMap_cons, restamp_append, restamp_append, hfg.1 u hkind htext,
      ih hrest hfg.2]

/-- A property of kinds and texts does not depend on the lines. -/
theorem forall_of_restamp_eq {G : LexemeKind → Text → Prop} (h : restamp 0 ts = restamp 0 us)
    (hts : ∀ t ∈ ts, G t.kind t.text) : ∀ u ∈ us, G u.kind u.text := by
  have hus : ∀ u ∈ restamp 0 us, G u.kind u.text := by
    rw [← h]
    exact List.forall_mem_map.2 hts
  exact List.forall_mem_map.1 hus

theorem restamp_filter_of_restamp_eq {p : Lexeme → Bool} (hp : ∀ t, p { t with line := 0 } = p t)
    (h : restamp 0 ts = restamp 0 us) : restamp 0 (ts.filter p) = restamp 0 (us.filter p) := by
  have hfilter (ts : List Lexeme) : restamp 0 (ts.filter p) = (restamp 0 ts).filter p := by
    rw [restamp, restamp, List.filter_map]
    exact congrArg (fun q => (ts.filter q).map _) (funext fun t => (hp t).symm)
  rw [hfilter, h, hfilter]

/-- A lexeme of the kind with the text asks neither for the file nor for the line that it
    stands on. -/
def Placeless (kind : LexemeKind) (text : Text) : Prop :=
  kind = .word → text ≠ "__FILE__".toList ∧ text ≠ "__LINE__".toList

instance (kind : LexemeKind) (text : Text) : Decidable (Placeless kind text) :=
  inferInstanceAs (Decidable (kind = .word → text ≠ "__FILE__".toList ∧ text ≠ "__LINE__".toList))

end Lexeme

open Lexeme

/-- The macro without the lines of its body. -/
def Macro.unnumbered (m : Macro) : Macro := { m with body := restamp 0 m.body }

namespace MacroTable

/-- The tables have the same macros but for `__FILE__`, line numbers apart. -/
def SameButFile (table table' : MacroTable) : Prop :=
  ∀ name ≠ "__FILE__".toList,
    (table.find? name).map Macro.unnumbered = (table'.find? name).map Macro.unnumbered

/-- What keeps two tables the same but for `__FILE__`: their macros do not ask for places,
    and none of the second table has other parameters than its counterpart. -/
structure Resembles (table table' : MacroTable) : Prop where
  same : table.SameButFile table'
  placeless : table.BodiesMeet Placeless
  placeless' : table'.BodiesMeet Placeless
  counterpart : ∀ m' ∈ table'.macros, ∃ m ∈ table.macros, m.name = m'.name ∧
    m.parameters = m'.parameters

variable {table table' : MacroTable}

theorem Resembles.refl (h : table.BodiesMeet Placeless) : table.Resembles table :=
  ⟨fun _ _ => rfl, h, h, fun m hm => ⟨m, hm, rfl, rfl⟩⟩

theorem Resembles.isObjectLike (h : table.Resembles table') (htable : table.IsObjectLike) :
    table'.IsObjectLike := by
  intro m' hm'
  obtain ⟨m, hm, -, hparameters⟩ := h.counterpart m' hm'
  exact hparameters ▸ htable m hm

theorem Resembles.isDefined (h : table.Resembles table') {name : Text}
    (hname : name ≠ "__FILE__".toList) :
    table.isDefined name = table'.isDefined name := by
  have hsame := congrArg Option.isSome (h.same name hname)
  rwa [Option.isSome_map, Option.isSome_map] at hsame

/-! ## Definitions -/

theorem bodiesMeet_insert {G : LexemeKind → Text → Prop} (h : table.BodiesMeet G) {m : Macro}
    (hm : G .word m.name → ∀ t ∈ m.body, G t.kind t.text) : (table.insert m).BodiesMeet G :=
  List.forall_mem_cons.2 ⟨hm, fun k hk => h k (List.mem_filter.1 hk).1⟩

theorem Resembles.erase (h : table.Resembles table') (name : Text) :
    (table.erase name).Resembles (table'.erase name) := by
  refine ⟨fun other hother => ?_, fun m hm => h.placeless m (List.mem_filter.1 hm).1,
    fun m hm => h.placeless' m (List.mem_filter.1 hm).1, fun m' hm' => ?_⟩
  · by_cases hname : other = name
    · rw [hname, find?_erase_self, find?_erase_self]
    · rw [find?_erase_of_ne _ hname, find?_erase_of_ne _ hname, h.same other hother]
  · obtain ⟨hmem, hne⟩ := List.mem_filter.1 hm'
    obtain ⟨m, hm, hname, hparameters⟩ := h.counterpart m' hmem
    exact ⟨m, List.mem_filter.2 ⟨hm, hname.symm ▸ hne⟩, hname, hparameters⟩

/-- The macro `__FILE__` may differ in its body. -/
theorem Resembles.insert (h : table.Resembles table') {m m' : Macro} (hname : m.name = m'.name)
    (hparameters : m.parameters = m'.parameters)
    (hbody : m.name ≠ "__FILE__".toList →
      restamp 0 m.body = restamp 0 m'.body ∧ ∀ t ∈ m.body, Placeless t.kind t.text) :
    (table.insert m).Resembles (table'.insert m') := by
  have hmeet : Placeless .word m.name → ∀ t ∈ m.body, Placeless t.kind t.text :=
    fun hm => (hbody (hm rfl).1).2
  refine ⟨fun other hother => ?_, bodiesMeet_insert h.placeless hmeet,
    bodiesMeet_insert h.placeless' fun hm' => ?_, ?_⟩
  · by_cases hself : other = m.name
    · obtain ⟨hsame, -⟩ := hbody (hself ▸ hother)
      rw [hself, find?_insert_self, hname, find?_insert_self]
      simp only [Option.map_some, Macro.unnumbered, hname, hparameters, hsame]
    · rw [find?_insert_of_ne _ _ hself, find?_insert_of_ne _ _ (hname ▸ hself), h.same other hother]
  · obtain ⟨hsame, hm⟩ := hbody (hname ▸ (hm' rfl).1)
    exact forall_of_restamp_eq hsame hm
  · refine List.forall_mem_cons.2 ⟨⟨m, List.mem_cons_self, hname, hparameters⟩, fun k' hk' => ?_⟩
    obtain ⟨k, hk, hkname, hkparameters⟩ := (h.erase m.name).counterpart k' (hname ▸ hk')
    exact ⟨k, List.mem_cons_of_mem _ hk, hkname, hkparameters⟩

/-- A table without parameters need not follow a definition of `__FILE__`. -/
theorem Resembles.insert_left (h : table.Resembles table') (htable' : table'.IsObjectLike)
    {m : Macro} (hname : m.name = "__FILE__".toList) (hparameters : m.parameters = .none) :
    (table.insert m).Resembles table' := by
  refine ⟨fun other hother => ?_, bodiesMeet_insert h.placeless fun hm => absurd hname (hm rfl).1,
    h.placeless', fun m' hm' => ?_⟩
  · rw [find?_insert_of_ne _ _ (hname ▸ hother), h.same other hother]
  · by_cases hself : m'.name = m.name
    · exact ⟨m, List.mem_cons_self, hself.symm, hparameters.trans (htable' m' hm').symm⟩
    · obtain ⟨k, hk, hkname, hkparameters⟩ := h.counterpart m' hm'
      refine ⟨k, List.mem_cons_of_mem _ (List.mem_filter.2 ⟨hk, ?_⟩), hkname, hkparameters⟩
      simpa [hkname] using hself

theorem bodyLexeme_unnumbered (t : Lexeme) :
    bodyLexeme { t with line := 0 } = { bodyLexeme t with line := 0 } := by
  unfold bodyLexeme
  dsimp only
  split <;> rfl

theorem readDefinition_restamp (args : List Lexeme) :
    readDefinition (restamp 0 args) = (readDefinition args).map Macro.unnumbered :=
  readDefinition_map (keepsShape_relabel fun _ => 0) bodyLexeme_unnumbered args

theorem readDefinition_forall {args : List Lexeme} (hargs : ∀ t ∈ args, Placeless t.kind t.text)
    {m : Macro} (h : readDefinition args = .ok m) : ∀ t ∈ m.body, Placeless t.kind t.text := by
  have hdefine : MacroTable.define {} args 0 = .ok (MacroTable.insert {} m) := by rw [define_eq, h]
  exact define_forall (by rintro ⟨⟩) (List.forall_mem_nil _) hargs hdefine m List.mem_cons_self

theorem Resembles.define (h : table.Resembles table') {args args' : List Lexeme}
    (hsame : restamp 0 args = restamp 0 args') (hargs : ∀ t ∈ args, Placeless t.kind t.text)
    {line : Nat} {after : MacroTable} (hafter : table.define args line = .ok after) (line' : Nat) :
    ∃ after', table'.define args' line' = .ok after' ∧ after.Resembles after' := by
  have hread : (readDefinition args).map Macro.unnumbered =
      (readDefinition args').map Macro.unnumbered := by
    rw [← readDefinition_restamp, hsame, readDefinition_restamp]
  rw [define_eq] at hafter ⊢
  cases hm : readDefinition args with
  | error fault =>
    rw [hm] at hafter
    cases hafter
  | ok m =>
    rw [hm] at hafter hread
    cases hafter
    cases hm' : readDefinition args' with
    | error fault =>
      rw [hm'] at hread
      cases hread
    | ok m' =>
      rw [hm'] at hread
      obtain ⟨hname, hparameters, hbody⟩ := Macro.mk.inj (Except.ok.inj hread)
      exact ⟨_, rfl, h.insert hname hparameters fun _ => ⟨hbody, readDefinition_forall hargs hm⟩⟩

/-! ## Expansion -/

theorem admits_placeless : Admits Placeless fun _ => True :=
  ⟨by rintro _ - ⟨⟩, by rintro ⟨⟩, by rintro ⟨⟩⟩

/-- More levels than there are macros make no difference. -/
theorem expandHiding_of_le (h : table.BodiesMeet Placeless) {levels : Nat}
    (hlevels : table.macros.length ≤ levels) {ts : List Lexeme}
    (hts : ∀ t ∈ ts, Placeless t.kind t.text) :
    table.expand ts = table.expandHiding levels [] ts :=
  expandHiding_congr admits_placeless h (table.unhidden_le [])
    ((table.unhidden_le []).trans hlevels) (fun _ _ => Iff.rfl) fun t ht => ⟨hts t ht, trivial⟩

theorem Resembles.replace (h : table.Resembles table') {hidden : List Text}
    {rescan rescan' : Text → List Lexeme → List Lexeme}
    (hrescan : ∀ name ts us, restamp 0 ts = restamp 0 us → (∀ t ∈ ts, Placeless t.kind t.text) →
      restamp 0 (rescan name ts) = restamp 0 (rescan' name us))
    {t u : Lexeme} (hkind : u.kind = t.kind) (htext : u.text = t.text)
    (ht : Placeless t.kind t.text) :
    restamp 0 (table.replace hidden rescan t) = restamp 0 (table'.replace hidden rescan' u) := by
  have hself : restamp 0 [t] = restamp 0 [u] := by simp [restamp, hkind, htext]
  unfold MacroTable.replace
  rw [hkind, htext]
  split
  · exact hself
  next hseen =>
  obtain ⟨hword, -⟩ := not_or.1 hseen
  obtain ⟨hfile, hline⟩ := ht (not_not.1 hword)
  have hsame := h.same t.text hfile
  cases hm : table.find? t.text with
  | none =>
    rw [hm] at hsame
    rw [Option.map_eq_none_iff.1 hsame.symm]
    dsimp only
    rw [if_neg hline, if_neg hline]
    exact hself
  | some m =>
    rw [hm] at hsame
    obtain ⟨m', hm', hunnumbered⟩ := Option.map_eq_some_iff.1 hsame.symm
    obtain ⟨hname, -, hbody⟩ := Macro.mk.inj hunnumbered
    have hplaceless := h.placeless.body (L := fun _ => True) ⟨ht, trivial⟩ hseen hm
    rw [hm']
    dsimp only
    rw [hname]
    refine hrescan _ _ _ ?_ fun v hv =>
      (meets_restamp (L := fun _ => True) hplaceless trivial v hv).1
    rw [restamp_restamp, restamp_restamp]
    exact hbody.symm

theorem Resembles.replacement (h : table.Resembles table') (levels : Nat) (hidden : List Text)
    {t u : Lexeme} (hkind : u.kind = t.kind) (htext : u.text = t.text)
    (ht : Placeless t.kind t.text) :
    restamp 0 (table.replacement levels hidden t) =
      restamp 0 (table'.replacement levels hidden u) := by
  induction levels generalizing hidden t u with
  | zero => exact h.replace (fun _ _ _ hsame _ => hsame) hkind htext ht
  | succ levels ih =>
    refine h.replace (fun name ts us hsame hts => ?_) hkind htext ht
    exact restamp_flatMap hsame fun t ht u hkind htext => ih _ hkind htext (hts t ht)

/-- **Lexemes that do not ask for their place expand to the same lexemes**, line numbers apart. -/
theorem Resembles.expand (h : table.Resembles table') (htable : table.IsObjectLike)
    {ts us : List Lexeme} (hsame : restamp 0 ts = restamp 0 us)
    (hts : ∀ t ∈ ts, Placeless t.kind t.text) :
    ∃ vs ws, table.expand ts = .ok vs ∧ table'.expand us = .ok ws ∧
      restamp 0 vs = restamp 0 ws := by
  -- Both tables are given the same number of levels.
  have hus := forall_of_restamp_eq hsame hts
  rw [expandHiding_of_le h.placeless (Nat.le_max_left _ table'.macros.length) hts,
    expandHiding_of_le h.placeless' (Nat.le_max_right table.macros.length _) hus,
    expandHiding_of_isObjectLike htable, expandHiding_of_isObjectLike (h.isObjectLike htable)]
  refine ⟨_, _, rfl, rfl, restamp_flatMap hsame fun t ht u hkind htext => ?_⟩
  exact h.replacement _ [] hkind htext (hts t ht)

end MacroTable

end IdlFrontend
