import Mathlib.Computability.StateTransition
import Mathlib.Data.Finset.Dedup
import IdlFrontend.Proofs.Session.Suspension

/-!
# The include stack

A run as a machine that keeps the names of the files it is reading in a stack. It reads
the innermost file up to the next include. Entering a file puts its name on the stack, and
leaving it, with or without success, takes the name off again. Nothing bounds how often
this happens: that a run ends is a theorem about the store.

Results:

* `exec_readFile_succ`: reading a file is answering each of its includes by reading a file.
* `reaches_done`: with a store of finitely many names, the innermost file is read to its
  end, with the outcome that `readFile` computes, and the stack below it is as it was.
* `WellNested.reaches`: the stack never holds a name twice, and all its names but the
  outermost one are served by the store.
* `eval_start`: a run ends with the outcome that `readFile` computes and the stack it began
  with.
-/

namespace IdlFrontend.Session

open StateTransition

/-- A moment of a run. The innermost file comes first in the stack. -/
inductive Machine where
  /-- A file is being read. The callers are what remains to be done in the files around
      it, when the outcome of its include is known. -/
  | reading (stack : List Text) (callers : List (Outcome → Suspended Outcome))
      (now : Suspended Outcome)
  /-- The outermost file has been left. -/
  | finished (stack : List Text) (outcome : Outcome)

namespace Machine

/-- The names of the files that are being read. -/
def stack : Machine → List Text
  | .reading stack _ _ | .finished stack _ => stack

/-- The beginning of a run, with a file that no other one includes. -/
def start (stack : List Text) (file : SourceFile) (s : Session) : Machine :=
  .reading (file.name :: stack) [] (exec (readFileWith file suspend) s)

/-- The result of a run that has ended. -/
def result? : Machine → Option (Except PreprocessError Unit)
  | .finished _ outcome => some outcome.1
  | .reading _ _ _ => none

/-- One step of a run: the outcome of an include that enters no file, or entering a file,
    or leaving one. -/
def step (store : SourceStore Id) : Machine → Option Machine
  | .reading stack callers (.including name quoted line s resume) =>
    match (store.find ⟨name, quoted, stack.headD []⟩).run with
    | none => some (.reading stack callers (resume (.error ⟨.notFound name, line⟩, s)))
    | some found =>
      if found.name ∈ stack then
        some (.reading stack callers (resume (.error ⟨.recursiveInclude name, line⟩, s)))
      else
        some (.reading (found.name :: stack) (resume :: callers)
          (exec (readFileWith found suspend) s))
  | .reading stack (caller :: callers) (.done outcome) =>
    some (.reading stack.tail callers (caller outcome))
  | .reading stack [] (.done outcome) => some (.finished stack.tail outcome)
  | .finished _ _ => none

variable {store : SourceStore Id} {stack : List Text}
  {callers : List (Outcome → Suspended Outcome)} {name : Text} {quoted : Bool} {line : Nat}
  {s : Session} {resume : Outcome → Suspended Outcome}

theorem step_notFound (h : (store.find ⟨name, quoted, stack.headD []⟩).run = none) :
    step store (.reading stack callers (.including name quoted line s resume)) =
      some (.reading stack callers (resume (.error ⟨.notFound name, line⟩, s))) := by
  simp only [step, h]

theorem step_recursive {found : SourceFile}
    (h : (store.find ⟨name, quoted, stack.headD []⟩).run = some found) (hmem : found.name ∈ stack) :
    step store (.reading stack callers (.including name quoted line s resume)) =
      some (.reading stack callers (resume (.error ⟨.recursiveInclude name, line⟩, s))) := by
  simp only [step, h, if_pos hmem]

theorem step_enter {found : SourceFile}
    (h : (store.find ⟨name, quoted, stack.headD []⟩).run = some found) (hmem : found.name ∉ stack) :
    step store (.reading stack callers (.including name quoted line s resume)) =
      some (.reading (found.name :: stack) (resume :: callers)
        (exec (readFileWith found suspend) s)) := by
  simp only [step, h, if_neg hmem]

/-- What the include directive at this moment asks for. -/
def request? : Machine → Option IncludeRequest
  | .reading stack _ (.including name quoted _ _ _) => some ⟨name, quoted, stack.headD []⟩
  | _ => none

/-- The include directive at this moment fails as one that includes a file in itself, and
    the stack remains as it is. -/
def Refuses (store : SourceStore Id) (c : Machine) : Prop :=
  ∃ stack callers name quoted line s resume,
    c = .reading stack callers (.including name quoted line s resume) ∧
      c.step store =
        some (.reading stack callers (resume (.error ⟨.recursiveInclude name, line⟩, s)))

/-- The names on the stack are compared as they are spelled. -/
theorem refuses_iff {c : Machine} {request : IncludeRequest} {found : SourceFile}
    (hrequest : c.request? = some request) (hfind : (store.find request).run = some found) :
    c.Refuses store ↔ found.name ∈ c.stack := by
  match c with
  | .finished _ _ | .reading _ _ (.done _) => cases hrequest
  | .reading stack callers (.including name quoted line s resume) =>
    cases hrequest
    constructor
    · rintro ⟨_, _, _, _, _, _, _, hc, hstep⟩
      cases hc
      by_contra hmem
      rw [step_enter hfind hmem] at hstep
      injection hstep with hstep
      injection hstep with hstack
      exact List.cons_ne_self _ _ hstack
    · intro hmem
      exact ⟨stack, callers, name, quoted, line, s, resume, rfl, step_recursive hfind hmem⟩

/-- A run that has come to a result has ended. -/
theorem mem_eval_of_result {c c' : Machine} {result : Except PreprocessError Unit}
    (hreach : Reaches (step store) c c') (h : c'.result? = some result) :
    c' ∈ eval (step store) c := by
  match c' with
  | .finished _ _ => exact mem_eval.2 ⟨hreach, rfl⟩
  | .reading _ _ _ => cases h

/-- A step leaves the stack, or puts the file on it that an include leads to, or takes the
    innermost file off. -/
theorem stack_of_step {c c' : Machine} (h : c.step store = some c') :
    c'.stack = c.stack ∨ c'.stack = c.stack.tail ∨
      ∃ request found, c.request? = some request ∧ (store.find request).run = some found ∧
        found.name ∉ c.stack ∧ c'.stack = found.name :: c.stack := by
  match c with
  | .finished _ _ => cases h
  | .reading stack [] (.done outcome) | .reading stack (_ :: _) (.done outcome) =>
    cases h
    exact .inr (.inl rfl)
  | .reading stack callers (.including name quoted line s resume) =>
    cases hfind : (store.find ⟨name, quoted, stack.headD []⟩).run with
    | none =>
      rw [step_notFound hfind] at h
      cases h
      exact .inl rfl
    | some found =>
      by_cases hmem : found.name ∈ stack
      · rw [step_recursive hfind hmem] at h
        cases h
        exact .inl rfl
      · rw [step_enter hfind hmem] at h
        cases h
        exact .inr (.inr ⟨_, found, rfl, hfind, hmem, rfl⟩)

end Machine

/-! ## Reading a file to its end -/

section Enter

variable {m : Type → Type} [Monad m]

theorem exec_enterFile [LawfulMonad m] (store : SourceStore m) (stack : List Text)
    (read : SourceFile → PreprocessM m Unit) (name : Text) (quoted : Bool) (line : Nat)
    (s : Session) :
    exec (enterFile store stack read name quoted line) s =
      store.find ⟨name, quoted, stack.headD []⟩ >>= fun
        | none => pure (.error ⟨.notFound name, line⟩, s)
        | some found =>
          if found.name ∈ stack then pure (.error ⟨.recursiveInclude name, line⟩, s)
          else exec (read found) s := by
  unfold enterFile
  rw [exec_bind, exec_lift, bind_assoc]
  refine bind_congr fun found? => ?_
  rw [pure_bind]
  cases found? with
  | none => rfl
  | some found =>
    dsimp only
    split
    · rfl
    · rfl

theorem exec_readFile_succ [LawfulMonad m] (store : SourceStore m) (depth : Nat)
    (around : List Text) (file : SourceFile) (s : Session) :
    exec (readFile store (depth + 1) around file) s =
      (exec (readFileWith file suspend) s).handle
        (enterFile store (file.name :: around) (readFile store depth (file.name :: around))) :=
  (handles_readFileWith _ file s).symm

end Enter

variable {store : SourceStore Id} {names : Finset Text}

/-- All names of files that the store gives out are among the given ones. -/
def Serves (names : Finset Text) (store : SourceStore Id) : Prop :=
  ∀ request found, (store.find request).run = some found → found.name ∈ names

/-- A name that is put on the stack is one less that can be put on it. -/
theorem card_sdiff_cons_lt {stack : List Text} {name : Text} (hname : name ∈ names)
    (hmem : name ∉ stack) :
    (names \ (name :: stack).toFinset).card < (names \ stack.toFinset).card := by
  rw [List.toFinset_cons, Finset.sdiff_insert]
  exact Finset.card_erase_lt_of_mem
    (Finset.mem_sdiff.2 ⟨hname, fun h => hmem (List.mem_toFinset.1 h)⟩)

/-- What remains to be read is read, if every file that it enters is read to its end. -/
theorem reaches_handle {depth : Nat} {stack : List Text}
    (hinner : ∀ request found callers s, (store.find request).run = some found →
      found.name ∉ stack →
      Reaches (Machine.step store)
        (.reading (found.name :: stack) callers (exec (readFileWith found suspend) s))
        (.reading (found.name :: stack) callers
          (.done (exec (readFile store depth stack found) s).run)))
    (callers : List (Outcome → Suspended Outcome)) (now : Suspended Outcome) :
    Reaches (Machine.step store) (.reading stack callers now)
      (.reading stack callers
      (.done (now.handle (enterFile store stack (readFile store depth stack))).run)) := by
  induction now with
  | done outcome => exact .refl
  | including name quoted line s resume ih =>
    rw [Suspended.handle, Id.run_bind, exec_enterFile, Id.run_bind]
    cases hfind : (store.find ⟨name, quoted, stack.headD []⟩).run with
    | none => exact .head (Machine.step_notFound hfind) (ih _)
    | some found =>
      dsimp only
      by_cases hmem : found.name ∈ stack
      · rw [if_pos hmem]
        exact .head (Machine.step_recursive hfind hmem) (ih _)
      · rw [if_neg hmem]
        refine .head (Machine.step_enter hfind hmem) ?_
        -- the file is left, and the rest of the file around it goes on with its outcome
        refine (hinner _ found (resume :: callers) s hfind hmem).trans (.head rfl ?_)
        exact ih _

/-- A file is read to its end, whatever it includes. The induction is on a bound for the
    names that are not on the stack yet. -/
theorem reaches_done (hstore : Serves names store) (depth : Nat) (stack : List Text)
    (callers : List (Outcome → Suspended Outcome)) (file : SourceFile) (s : Session)
    (hdepth : (names \ (file.name :: stack).toFinset).card ≤ depth) :
    Reaches (Machine.step store)
      (.reading (file.name :: stack) callers (exec (readFileWith file suspend) s))
      (.reading (file.name :: stack) callers
        (.done (exec (readFile store (depth + 1) stack file) s).run)) := by
  induction depth generalizing stack callers file s with
  | zero =>
    rw [exec_readFile_succ]
    refine reaches_handle (fun request found callers s hfind hmem => ?_) callers _
    have hlt := card_sdiff_cons_lt (hstore request found hfind) hmem
    omega
  | succ depth ih =>
    rw [exec_readFile_succ]
    refine reaches_handle (fun request found callers s hfind hmem => ?_) callers _
    have hlt := card_sdiff_cons_lt (hstore request found hfind) hmem
    exact ih (file.name :: stack) callers found s (by omega)

/-- A run ends, and takes all the names that it has put on the stack off again. -/
theorem eval_start (hstore : Serves names store) (hcapacity : names.card ≤ store.capacity)
    (stack : List Text) (file : SourceFile) (s : Session) :
    .finished stack (exec (readFile store (store.capacity + 1) stack file) s).run ∈
      eval (Machine.step store) (.start stack file s) := by
  have hdepth : (names \ (file.name :: stack).toFinset).card ≤ store.capacity :=
    (Finset.card_le_card Finset.sdiff_subset).trans hcapacity
  refine mem_eval.2 ⟨?_, rfl⟩
  exact (reaches_done hstore store.capacity stack [] file s hdepth).tail rfl

/-! ## The names on the stack -/

/-- What holds at every moment of a run that began with an empty stack: no name is on the
    stack twice, and the store serves all of them but the outermost one. Every file but
    that one has a caller. -/
inductive WellNested (names : Finset Text) : Machine → Prop
  | reading {stack : List Text} {callers : List (Outcome → Suspended Outcome)}
      {now : Suspended Outcome} (hnodup : stack.Nodup)
      (hnames : ∀ name ∈ stack.dropLast, name ∈ names)
      (hcallers : stack.length = callers.length + 1) :
      WellNested names (.reading stack callers now)
  | finished (outcome : Outcome) : WellNested names (.finished [] outcome)

theorem wellNested_start (file : SourceFile) (s : Session) :
    WellNested names (.start [] file s) :=
  .reading (List.nodup_singleton _) (List.forall_mem_nil _) rfl

theorem WellNested.step (hstore : Serves names store) {c c' : Machine} (h : WellNested names c)
    (hstep : c.step store = some c') : WellNested names c' := by
  cases h with
  | finished outcome => cases hstep
  | @reading stack callers now hnodup hnames hcallers =>
    cases now with
    | including name quoted line s resume =>
      cases hfind : (store.find ⟨name, quoted, stack.headD []⟩).run with
      | none =>
        rw [Machine.step_notFound hfind] at hstep
        cases hstep
        exact .reading hnodup hnames hcallers
      | some found =>
        by_cases hmem : found.name ∈ stack
        · rw [Machine.step_recursive hfind hmem] at hstep
          cases hstep
          exact .reading hnodup hnames hcallers
        · rw [Machine.step_enter hfind hmem] at hstep
          cases hstep
          have hne : stack ≠ [] := List.ne_nil_of_length_eq_add_one hcallers
          refine .reading (hnodup.cons hmem) ?_ (congrArg (· + 1) hcallers)
          rw [List.dropLast_cons_of_ne_nil hne]
          exact List.forall_mem_cons.2 ⟨hstore _ _ hfind, hnames⟩
    | done outcome =>
      cases callers with
      | nil =>
        cases hstep
        obtain ⟨name, rfl⟩ := List.length_eq_one_iff.1 hcallers
        exact .finished outcome
      | cons caller callers =>
        cases hstep
        refine .reading hnodup.tail (fun name hname => hnames name ?_) ?_
        · rw [← List.tail_dropLast] at hname
          exact List.mem_of_mem_tail hname
        · rw [List.length_tail, hcallers]
          rfl

theorem WellNested.reaches (hstore : Serves names store) {c c' : Machine}
    (h : WellNested names c) (hreach : Reaches (Machine.step store) c c') :
    WellNested names c' := by
  induction hreach with
  | refl => exact h
  | tail _ hstep ih => exact ih.step hstore hstep

theorem WellNested.nodup {c : Machine} (h : WellNested names c) : c.stack.Nodup := by
  cases h with
  | reading hnodup _ _ => exact hnodup
  | finished _ => exact List.nodup_nil

theorem WellNested.mem {c : Machine} (h : WellNested names c) :
    ∀ name ∈ c.stack.dropLast, name ∈ names := by
  cases h with
  | reading _ hnames _ => exact hnames
  | finished _ => exact List.forall_mem_nil _

theorem WellNested.stack_eq_nil {stack : List Text} {outcome : Outcome}
    (h : WellNested names (.finished stack outcome)) : stack = [] := by
  cases h with
  | finished _ => rfl

/-- Files are nested at most one deeper than there are names. -/
theorem WellNested.length_le {c : Machine} (h : WellNested names c) :
    c.stack.length ≤ names.card + 1 := by
  have hnodup : c.stack.dropLast.Nodup := h.nodup.sublist (List.dropLast_sublist _)
  have hle : c.stack.dropLast.length ≤ names.card := by
    rw [← List.toFinset_card_of_nodup hnodup]
    exact Finset.card_le_card fun name hname => h.mem name (List.mem_toFinset.1 hname)
  rw [List.length_dropLast] at hle
  omega

end IdlFrontend.Session
