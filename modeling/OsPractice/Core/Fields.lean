/-
Texts with separators. Library: nothing here names a program.

`List.splitOn` cuts a text at every separator: its fields may be empty, as between two separators or before the first.
`strtok` takes the next token off a text, and passes over any number of separators first; no token is empty.

Results: `nonempty_eq`: the tokens of a text are its fields without the empty ones; `strtok_length`: a loop over the
tokens ends.
-/
import Mathlib.Tactic
import Mathlib.Data.List.TakeWhile

namespace OsPractice.Fields

variable {A : Type} [DecidableEq A] {sep : A} {s t rest : List A}

/-- the next token and what follows the separator after it; `none` when there are separators only -/
def strtok (sep : A) (s : List A) : Option (List A × List A) :=
  match s.dropWhile (· == sep) with
  | [] => none
  | a :: l => some ((a :: l).takeWhile (· != sep), ((a :: l).dropWhile (· != sep)).tail)

/-- the fields that are not empty -/
def nonempty (sep : A) (s : List A) : List (List A) := (s.splitOn sep).filter (· ≠ [])

@[simp] theorem strtok_nil (sep : A) : strtok sep [] = none := rfl

@[simp] theorem strtok_sep (sep : A) (s : List A) : strtok sep (sep :: s) = strtok sep s := by simp [strtok]

theorem strtok_cons {a : A} (ha : a ≠ sep) (s : List A) :
    strtok sep (a :: s) = some (a :: s.takeWhile (· != sep), (s.dropWhile (· != sep)).tail) := by
  simp [strtok, ha]

/-- the first token of a text that begins with it -/
theorem strtok_append (ht : t ≠ []) (hsep : sep ∉ t) (rest : List A) :
    strtok sep (t ++ sep :: rest) = some (t, rest) := by
  obtain ⟨a, t, rfl⟩ := List.exists_cons_of_ne_nil ht
  obtain ⟨ha, ht⟩ := List.ne_and_not_mem_of_not_mem_cons hsep
  have hall : ∀ c ∈ t, (c != sep) = true := fun c hc => by simpa using ne_of_mem_of_not_mem hc ht
  rw [List.cons_append, strtok_cons ha.symm, List.takeWhile_append_of_pos hall, List.dropWhile_append_of_pos hall]
  simp

theorem strtok_ne_nil (h : strtok sep s = some (t, rest)) : t ≠ [] := by
  induction s with
  | nil => cases h
  | cons a s ih =>
    by_cases ha : a = sep
    · subst ha
      exact ih (by rwa [strtok_sep] at h)
    · rw [strtok_cons ha] at h
      cases h
      exact List.cons_ne_nil _ _

theorem strtok_length (h : strtok sep s = some (t, rest)) : rest.length < s.length := by
  induction s with
  | nil => cases h
  | cons a s ih =>
    by_cases ha : a = sep
    · subst ha
      rw [strtok_sep] at h
      exact (ih h).trans (Nat.lt_succ_self _)
    · rw [strtok_cons ha] at h
      cases h
      have hdrop : (s.dropWhile (· != sep)).length ≤ s.length := (List.dropWhile_suffix _).length_le
      rw [List.length_tail, List.length_cons]
      omega

@[simp] theorem nonempty_nil (sep : A) : nonempty sep [] = [] := by simp [nonempty]

@[simp] theorem nonempty_sep (sep : A) (s : List A) : nonempty sep (sep :: s) = nonempty sep s := by
  simp [nonempty, List.splitOn_cons_eq_if_modifyHead]

/-- the first field of a text that does not begin with a separator -/
theorem nonempty_cons {a : A} (ha : a ≠ sep) (s : List A) :
    nonempty sep (a :: s) =
      (a :: s.takeWhile (· != sep)) :: nonempty sep (s.dropWhile (· != sep)).tail := by
  have htake : sep ∉ a :: s.takeWhile (· != sep) := by
    intro hmem
    rcases List.mem_cons.1 hmem with h | h
    · exact ha h.symm
    · simpa using List.mem_takeWhile_imp h
  have hs : a :: s = (a :: s.takeWhile (· != sep)) ++ s.dropWhile (· != sep) := by simp
  cases hdrop : s.dropWhile (· != sep) with
  | nil =>
    rw [hdrop, List.append_nil] at hs
    rw [nonempty, hs, List.splitOn_eq_singleton htake]
    simp
  | cons b l =>
    have hb : b = sep := by
      have := List.head?_dropWhile_not (· != sep) s
      rw [hdrop] at this
      simpa using this
    subst hb
    rw [hdrop] at hs
    rw [nonempty, hs, List.splitOn_append_cons_self_of_not_mem htake]
    simp [nonempty]

/-- the tokens of a text are its fields without the empty ones -/
theorem nonempty_eq (sep : A) (s : List A) :
    nonempty sep s = match strtok sep s with
      | none => []
      | some (t, rest) => t :: nonempty sep rest := by
  induction s with
  | nil => simp
  | cons a s ih =>
    by_cases ha : a = sep
    · subst ha
      rw [nonempty_sep, strtok_sep, ih]
    · rw [nonempty_cons ha, strtok_cons ha]

theorem nonempty_of_none (h : strtok sep s = none) : nonempty sep s = [] := by rw [nonempty_eq, h]

theorem nonempty_of_some (h : strtok sep s = some (t, rest)) : nonempty sep s = t :: nonempty sep rest := by
  rw [nonempty_eq, h]

end OsPractice.Fields
