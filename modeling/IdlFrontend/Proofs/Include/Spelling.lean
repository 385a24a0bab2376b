import Mathlib.Data.Finset.Preimage
import Mathlib.Data.List.Nodup
import Mathlib.Data.Nat.Digits.Defs
import IdlFrontend.Include.Path

/-!
# How paths are spelled

A place has many spellings: `a`, `./a` and `x/../a` lead to the same one. Below a bound
for the length there are only finitely many of them, and only one makes no detour, through
the directory it is in or through another one and back.

Results:

* `card_short_le`: no more than `256 ^ n` paths have less than `n` bytes.
* `place_injOn`: a path without a detour is known from the place it leads to.
* `isPlain_join`, `isPlain_parent`: putting paths together makes no detours.
-/

namespace IdlFrontend.Path

/-! ## Paths of a bounded length -/

/-- The bytes that a path is encoded in. -/
def bytes (path : Text) : List UInt8 := path.flatMap String.utf8EncodeChar

theorem length_bytes (path : Text) : (bytes path).length = byteLength path := by
  induction path with
  | nil => rfl
  | cons c cs ih =>
    rw [bytes] at ih ⊢
    rw [List.flatMap_cons, List.length_append, String.length_utf8EncodeChar, ih, byteLength]

theorem bytes_injective : Function.Injective bytes := by
  intro p q h
  have hencode : List.utf8Encode p = List.utf8Encode q := congrArg List.toByteArray h
  have hdecode := congrArg ByteArray.utf8Decode? hencode
  rw [List.utf8Decode?_utf8Encode, List.utf8Decode?_utf8Encode, Option.some_inj] at hdecode
  exact List.toArray_inj hdecode

/-- The digits of the number of a path. The last one keeps zeros before it apart. -/
def digits (path : Text) : List Nat := (bytes path).map UInt8.toNat ++ [1]

/-- A number for every path. -/
def number (path : Text) : Nat := Nat.ofDigits 256 (digits path)

theorem lt_of_mem_digits {path : Text} : ∀ d ∈ digits path, d < 256 := by
  refine List.forall_mem_append.2 ⟨List.forall_mem_map.2 fun b _ => ?_, by simp⟩
  exact b.toNat_lt_size

theorem number_lt {path : Text} {n : Nat} (h : byteLength path < n) : number path < 256 ^ n := by
  have hlength : (digits path).length ≤ n := by
    rw [digits, List.length_append, List.length_map, length_bytes]
    exact h
  calc number path < 256 ^ (digits path).length :=
        Nat.ofDigits_lt_base_pow_length (by decide) lt_of_mem_digits
    _ ≤ 256 ^ n := Nat.pow_le_pow_right (by decide) hlength

theorem digits_number (path : Text) : Nat.digits 256 (number path) = digits path := by
  refine Nat.digits_ofDigits 256 (by decide) _ lt_of_mem_digits fun h => ?_
  simp [digits]

theorem number_injective : Function.Injective number := by
  intro p q h
  have hdigits := congrArg (Nat.digits 256) h
  rw [digits_number, digits_number] at hdigits
  have hbytes := List.append_cancel_right hdigits
  exact bytes_injective (List.map_injective_iff.2 (fun _ _ => UInt8.toNat_inj.1) hbytes)

/-- The paths with numbers below `256 ^ n`: all of less than `n` bytes are among them. -/
noncomputable def short (n : Nat) : Finset Text :=
  (Finset.range (256 ^ n)).preimage number number_injective.injOn

theorem mem_short {path : Text} {n : Nat} (h : byteLength path < n) : path ∈ short n :=
  Finset.mem_preimage.2 (Finset.mem_range.2 (number_lt h))

theorem card_short_le (n : Nat) : (short n).card ≤ 256 ^ n := by
  rw [← Finset.card_range (256 ^ n)]
  exact Finset.card_le_card_of_injOn number (fun p hp => Finset.mem_preimage.1 hp)
    number_injective.injOn

/-! ## Components -/

theorem components_eq_splitOn (path : Text) : components path = path.splitOn '/' := by
  induction path with
  | nil => rfl
  | cons c cs ih =>
    rw [List.splitOn, List.splitOnP_cons_eq_if_modifyHead, ← List.splitOn, ← ih, components]
    split
    · rfl
    · cases hparts : components cs with
      | nil => exact absurd hparts (components_ne_nil cs)
      | cons part parts => rfl

theorem components_append_slash (dir name : Text) :
    components (dir ++ '/' :: name) = components dir ++ components name := by
  simp only [components_eq_splitOn]
  exact List.splitOnP_append_cons dir name rfl

theorem slash_notMem_of_mem_components {path part : Text} (h : part ∈ components path) :
    '/' ∉ part := by
  induction path generalizing part with
  | nil =>
    rw [List.mem_singleton.1 h]
    exact List.not_mem_nil
  | cons c cs ih =>
    rw [components] at h
    split at h
    · obtain rfl | h := List.mem_cons.1 h
      · exact List.not_mem_nil
      · exact ih h
    next hc =>
      have hne : '/' ≠ c := fun h => hc (beq_iff_eq.2 h.symm)
      split at h
      · rw [List.mem_singleton.1 h]
        exact List.not_mem_cons_of_ne_of_not_mem hne List.not_mem_nil
      next head rest heq =>
        rw [heq] at ih
        obtain rfl | h := List.mem_cons.1 h
        · exact List.not_mem_cons_of_ne_of_not_mem hne (ih List.mem_cons_self)
        · exact ih (List.mem_cons_of_mem _ h)

theorem components_join {parts : List Text} (hne : parts ≠ [])
    (h : ∀ part ∈ parts, '/' ∉ part) : components (Text.join ['/'] parts) = parts := by
  rw [components_eq_splitOn]
  exact List.splitOn_intercalate '/' h hne

/-! ## Detours -/

/-- The place that a relative path leads to. -/
def place (path : Text) : List Text := resolve (components path)

/-- The path makes no detour: none of its components leads nowhere or upward. -/
def isPlain (path : Text) : Bool :=
  (components path).all fun part => !isIdle part && !isUpward part

theorem isPlain_iff {path : Text} :
    isPlain path ↔ ∀ part ∈ components path, isIdle part = false ∧ isUpward part = false := by
  simp [isPlain]

theorem place_of_isPlain {path : Text} (h : isPlain path) : place path = components path :=
  resolve_eq_self (isPlain_iff.1 h)

theorem place_injOn {p q : Text} (hp : isPlain p) (hq : isPlain q) (h : place p = place q) :
    p = q := by
  rw [place_of_isPlain hp, place_of_isPlain hq] at h
  rw [← join_components p, h, join_components]

theorem nodup_map_place {paths : List Text} (h : paths.Nodup) :
    ((paths.filter isPlain).map place).Nodup := by
  refine (h.filter isPlain).map_on fun p hp q hq hpq => ?_
  exact place_injOn (List.mem_filter.1 hp).2 (List.mem_filter.1 hq).2 hpq

theorem place_mem_iff {path : Text} {paths : List Text} (h : isPlain path) :
    place path ∈ (paths.filter isPlain).map place ↔ path ∈ paths := by
  constructor
  · intro hmem
    obtain ⟨q, hq, hplace⟩ := List.mem_map.1 hmem
    obtain ⟨hq, hplain⟩ := List.mem_filter.1 hq
    exact place_injOn hplain h hplace ▸ hq
  · exact fun hmem => List.mem_map_of_mem (List.mem_filter.2 ⟨hmem, h⟩)

/-! ## Putting paths together -/

theorem isPlain_join {dir name : Text} (hdir : dir = [] ∨ isPlain dir) (hname : isPlain name) :
    isPlain (join dir name) := by
  unfold join
  split
  · exact hname
  next hdirect =>
    obtain rfl | hdir := hdir
    · simp at hdirect
    split
    next hslash =>
      -- a slash at the end would stand before an empty component
      obtain ⟨before, rfl⟩ := List.getLast?_eq_some_iff.1 (beq_iff_eq.1 hslash)
      have hempty := isPlain_iff.1 hdir [] (by simp [components_append_slash, components])
      cases hempty.1
    · rw [isPlain_iff, components_append_slash, List.forall_mem_append]
      exact ⟨isPlain_iff.1 hdir, isPlain_iff.1 hname⟩

theorem head_of_isPlain {path : Text} (h : isPlain path) : head path = [] := by
  have hidle := fun part hpart => (isPlain_iff.1 h part hpart).1
  unfold head
  split
  · cases hidle [] (by simp [components])
  · cases hidle ['.'] (by simp [components])
  · cases hidle ['.'] (by simp [components])
  · rfl

theorem dropIdle_of_forall {parts : List Text} (h : ∀ part ∈ parts, isIdle part = false) :
    dropIdle parts = parts := by
  have hdrop : parts.reverse.dropWhile isIdle = parts.reverse := by
    cases hparts : parts.reverse with
    | nil => rfl
    | cons part rest =>
      have hpart := h part (List.mem_reverse.1 (hparts ▸ List.mem_cons_self))
      exact List.dropWhile_cons_of_neg (by simp [hpart])
  rw [dropIdle, hdrop, List.reverse_reverse]

theorem isPlain_parent {path : Text} (h : isPlain path) :
    parent path = [] ∨ isPlain (parent path) := by
  have hplain := isPlain_iff.1 h
  have hparent : parent path = Text.join ['/'] (components path).dropLast := by
    have hidle := fun part hpart => (hplain part hpart).1
    have hparts := components_ne_nil path
    rw [parent, head_of_isPlain h, List.length_nil, List.drop_zero, dropIdle_of_forall hidle]
    split
    next hnil => contradiction
    · rw [dropIdle_of_forall fun part hpart => hidle part (List.mem_of_mem_dropLast hpart)]
      rfl
  rw [hparent]
  by_cases hne : (components path).dropLast = []
  · rw [hne]
    exact .inl rfl
  · right
    rw [isPlain_iff, components_join hne fun part hpart =>
      slash_notMem_of_mem_components (List.mem_of_mem_dropLast hpart)]
    exact fun part hpart => hplain part (List.mem_of_mem_dropLast hpart)

end IdlFrontend.Path
