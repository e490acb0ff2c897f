/-
`isdigitstr` (`procfs/userfsact.c`), which is to tell the names of processes from the others in `/proc`. It accepts what
`strtoll` reads to the end, and `strtoll` reads more than digits.

A text is the bytes before its NUL.

Results: `isdigitstr_eq_zero`: the texts that are accepted; `isdigitstr_exact`: the texts for which that is right.
-/
import OsPractice.Core.Decimal

namespace OsPractice.Isdigitstr

open Bytes Decimal

/-- `*s`: behind the text there is its NUL -/
def deref (s : List Byte) : Byte := s.headD 0

def isdigitstr (s : List Byte) : ℤ :=
  if deref s = 0 then -1
  else
    let endp := (strtoll s).2
    if deref s ≠ 0 ∧ deref endp = 0 then 0 else -1

/-- at least one digit, and only digits -/
def DigitString (s : List Byte) : Prop := s ≠ [] ∧ ∀ c ∈ s, isDigit c = true

instance (s : List Byte) : Decidable (DigitString s) := inferInstanceAs (Decidable (_ ∧ _))

/-- at least one digit behind blanks, a sign or both -/
def Padded (s : List Byte) : Prop :=
  ∃ blanks sgn ds, s = blanks ++ (sgn ++ ds) ∧ (∀ c ∈ blanks, isSpace c = true) ∧
    (sgn = [] ∨ sgn = [43] ∨ sgn = [45]) ∧ DigitString ds ∧ blanks ++ sgn ≠ []

theorem deref_eq_zero {s : List Byte} (h : 0 ∉ s) : deref s = 0 ↔ s = [] := by
  cases s with
  | nil => exact iff_of_true rfl rfl
  | cons c s => exact iff_of_false (fun hc => h (hc ▸ List.mem_cons_self)) (List.cons_ne_nil c s)

theorem numerical_iff (s : List Byte) : Numerical s ↔ DigitString s ∨ Padded s := by
  constructor
  · rintro ⟨blanks, sgn, ds, rfl, hblanks, hsgn, hds⟩
    by_cases hpad : blanks ++ sgn = []
    · obtain ⟨rfl, rfl⟩ := List.append_eq_nil_iff.1 hpad
      exact .inl hds
    · exact .inr ⟨blanks, sgn, ds, rfl, hblanks, hsgn, hds, hpad⟩
  · rintro (hds | ⟨blanks, sgn, ds, rfl, hblanks, hsgn, hds, -⟩)
    · exact ⟨[], [], s, rfl, by simp, .inl rfl, hds⟩
    · exact ⟨blanks, sgn, ds, rfl, hblanks, hsgn, hds⟩

theorem not_isDigit_of_isSpace {c : Byte} (h : isSpace c = true) : isDigit c = false := by
  revert c
  decide

/-- what stands before the digits is no digit -/
theorem Padded.not_digitString {s : List Byte} (h : Padded s) : ¬ DigitString s := by
  obtain ⟨blanks, sgn, ds, rfl, hblanks, hsgn, -, hpad⟩ := h
  rintro ⟨-, hdigits⟩
  cases blanks with
  | cons c blanks =>
    have hc := hdigits c List.mem_cons_self
    rw [not_isDigit_of_isSpace (hblanks c List.mem_cons_self)] at hc
    cases hc
  | nil =>
    rcases hsgn with rfl | rfl | rfl
    · exact hpad rfl
    · exact absurd (hdigits 43 List.mem_cons_self) (by decide)
    · exact absurd (hdigits 45 List.mem_cons_self) (by decide)

/-- the texts that are accepted -/
theorem isdigitstr_eq_zero {s : List Byte} (h : 0 ∉ s) : isdigitstr s = 0 ↔ DigitString s ∨ Padded s := by
  rw [← numerical_iff]
  by_cases hs : s = []
  · subst hs
    refine iff_of_false (by decide) ?_
    rintro ⟨blanks, sgn, ds, hnil, -, -, hne, -⟩
    simp_all
  · have hend : 0 ∉ (strtoll s).2 := fun h0 => h ((strtoll_suffix s).mem h0)
    have hfirst : deref s ≠ 0 := mt (deref_eq_zero h).1 hs
    rw [isdigitstr, if_neg hfirst, ← strtoll_end hs, ← deref_eq_zero hend]
    simp only [ne_eq, hfirst, not_false_eq_true, true_and]
    split_ifs with hz
    · exact iff_of_true rfl hz
    · exact iff_of_false (by decide) hz

theorem isdigitstr_eq_neg_one (s : List Byte) : isdigitstr s = -1 ↔ isdigitstr s ≠ 0 := by
  unfold isdigitstr
  simp only
  split_ifs <;> decide

/-- **Digit strings.** `isdigitstr` accepts a text if and only if it is a digit string, for all texts but those that
have blanks or a sign before their digits. -/
theorem isdigitstr_exact {s : List Byte} (h : 0 ∉ s) : (isdigitstr s = 0 ↔ DigitString s) ↔ ¬ Padded s := by
  rw [isdigitstr_eq_zero h]
  constructor
  · intro hiff hpad
    exact hpad.not_digitString (hiff.1 (.inr hpad))
  · intro hpad
    exact or_iff_left hpad

/-- a numeral that is too long for a `long long` -/
theorem isdigitstr_exact_long : isdigitstr (List.replicate 30 57) = 0 ↔ DigitString (List.replicate 30 57) := by
  refine (isdigitstr_exact (s := List.replicate 30 57) (by decide)).2 fun hpad => hpad.not_digitString ⟨by decide, ?_⟩
  exact fun c hc => (List.eq_of_mem_replicate hc) ▸ rfl

/-- `+5` -/
theorem not_isdigitstr_exact : ¬ ∀ s : List Byte, 0 ∉ s → (isdigitstr s = 0 ↔ DigitString s) := by
  intro h
  have hfive := (h [43, 53] (by decide)).1 (by decide)
  exact absurd (hfive.2 43 List.mem_cons_self) (by decide)

end OsPractice.Isdigitstr
