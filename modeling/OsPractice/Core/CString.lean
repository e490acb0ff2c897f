/-
C strings: the functions of `string.h`. Library: nothing here names a program.

A string is a list of bytes without NUL; the bytes that it points into are a buffer.

Results:
- `strncmp_eq_zero`: what `strncmp` compares;
- `strchr_idx`: the first occurrence of a byte; `strrchr_drop`: what follows the last one;
- `cstring_strncpy`, `stpcpy_eq`: a buffer after a copy.
-/
import OsPractice.Core.Bytes
import Mathlib.Data.List.DropRight

namespace OsPractice.CString

open Bytes

/-! ## Comparison -/

/-- `strncmp`: the difference of the first bytes that differ, among the first `n` -/
def strncmp : List Byte → List Byte → ℕ → ℤ
  | _, _, 0 => 0
  | [], [], _ + 1 => 0
  | a :: _, [], _ + 1 => a.toNat
  | [], b :: _, _ + 1 => - b.toNat
  | a :: s, b :: t, n + 1 => if a = b then strncmp s t n else a.toNat - b.toNat

theorem toNat_ne_zero {b : Byte} (h : b ≠ 0) : (b.toNat : ℤ) ≠ 0 := by
  intro h0
  exact h (BitVec.eq_of_toNat_eq (by simpa using h0))

theorem strncmp_eq_zero {s t : List Byte} (hs : 0 ∉ s) (ht : 0 ∉ t) (n : ℕ) :
    strncmp s t n = 0 ↔ s.take n = t.take n := by
  fun_induction strncmp s t n with
  | case1 => simp
  | case2 => simp
  | case3 n a s =>
    have ha := toNat_ne_zero (List.ne_of_not_mem_cons hs).symm
    simpa using ha
  | case4 n b t =>
    have hb := toNat_ne_zero (List.ne_of_not_mem_cons ht).symm
    simpa using hb
  | case5 a s t n ih =>
    rw [ih (List.not_mem_of_not_mem_cons hs) (List.not_mem_of_not_mem_cons ht)]
    simp
  | case6 a s b t n hab =>
    have hne : (a.toNat : ℤ) - b.toNat ≠ 0 := by
      intro h0
      exact hab (BitVec.eq_of_toNat_eq (by omega))
    simp [hne, hab]

/-! ## Search -/

/-- `strchr`: the index of the first `c` -/
def strchr (c : Byte) : List Byte → Option ℕ
  | [] => none
  | b :: s => if b = c then some 0 else (strchr c s).map (· + 1)

/-- `strrchr`: the index of the last `c` -/
def strrchr (c : Byte) : List Byte → Option ℕ
  | [] => none
  | b :: s =>
    match strrchr c s with
    | some i => some (i + 1)
    | none => if b = c then some 0 else none

theorem strchr_idx {c : Byte} {s : List Byte} (h : c ∈ s) : strchr c s = some (s.takeWhile (· ≠ c)).length := by
  induction s with
  | nil => simp at h
  | cons b s ih =>
    by_cases hb : b = c
    · simp [strchr, hb]
    · have hs : c ∈ s := (List.mem_cons.1 h).resolve_left (Ne.symm hb)
      simp [strchr, hb, ih hs]

theorem strrchr_none {c : Byte} {s : List Byte} (h : strrchr c s = none) : c ∉ s := by
  induction s with
  | nil => simp
  | cons b s ih =>
    simp only [strrchr] at h
    split at h
    · cases h
    · rename_i hs
      split_ifs at h with hb
      exact List.not_mem_cons_of_ne_of_not_mem (Ne.symm hb) (ih hs)

/-- what is behind the last `c` -/
theorem strrchr_drop {c : Byte} {s : List Byte} {i : ℕ} (h : strrchr c s = some i) :
    ∃ init rest, s = init ++ c :: rest ∧ c ∉ rest ∧ s.drop (i + 1) = rest := by
  induction s generalizing i with
  | nil => cases h
  | cons b s ih =>
    simp only [strrchr] at h
    split at h
    · rename_i j hj
      cases h
      obtain ⟨init, rest, rfl, hc, hd⟩ := ih hj
      exact ⟨b :: init, rest, rfl, hc, by simpa using hd⟩
    · rename_i hs
      split_ifs at h with hb
      cases h
      exact ⟨[], s, by simp [hb], strrchr_none hs, by simp⟩

/-! ## Copies -/

/-- `strncpy`: exactly `n` bytes are written, those behind the string are NULs -/
def strncpy (buf src : List Byte) (n : ℕ) : List Byte :=
  fill buf (src.take n ++ List.replicate (n - src.length) 0)

@[simp] theorem strncpy_length {buf : List Byte} {n : ℕ} (src : List Byte) (h : n ≤ buf.length) :
    (strncpy buf src n).length = buf.length := by
  refine fill_length ?_
  simp only [List.length_append, List.length_take, List.length_replicate]
  omega

/-- a source that is shorter than `n` is copied with its NUL -/
theorem strncpy_eq {src : List Byte} {n : ℕ} (h : src.length < n) (buf : List Byte) :
    ∃ rest, strncpy buf src n = src ++ 0 :: rest := by
  obtain ⟨k, hk⟩ : ∃ k, n - src.length = k + 1 := ⟨n - src.length - 1, by omega⟩
  have hbytes : src.take n ++ List.replicate (n - src.length) 0 = src ++ 0 :: List.replicate k 0 := by
    rw [List.take_of_length_le h.le, hk, List.replicate_succ]
  rw [strncpy, hbytes, fill, List.append_assoc, List.cons_append]
  exact ⟨_, rfl⟩

theorem cstring_strncpy {buf src : List Byte} {n : ℕ} (h0 : 0 ∉ src) (h : src.length < n) :
    cstring (strncpy buf src n) = src := by
  obtain ⟨rest, hrest⟩ := strncpy_eq h buf
  rw [hrest]
  exact cstring_append h0 rest

/-- a source that is too long leaves the copy without its NUL -/
theorem strncpy_take {buf src : List Byte} {n : ℕ} (h : n ≤ src.length) :
    (strncpy buf src n).take n = src.take n := by
  have hlen : (src.take n).length = n := by simpa using h
  rw [strncpy, fill, Nat.sub_eq_zero_of_le h, List.replicate_zero, List.append_nil]
  exact List.take_left' hlen

/-- the copy has the text `t`, which is shorter than `n`, only if `t` has been copied -/
theorem cstring_strncpy_iff {buf src t : List Byte} {n : ℕ} (h0 : 0 ∉ src) (ht : t.length < n) :
    cstring (strncpy buf src n) = t ↔ src = t := by
  rcases lt_or_ge src.length n with h | h
  · rw [cstring_strncpy h0 h]
  · constructor
    · intro hc
      -- there is no NUL among the first `n` bytes
      have hlen : (src.take n).length = n := by simpa using h
      have hall : ∀ b ∈ src.take n, decide (b ≠ 0) = true := fun b hb =>
        decide_eq_true (ne_of_mem_of_not_mem (List.mem_of_mem_take hb) h0)
      have hle : n ≤ (cstring (strncpy buf src n)).length := by
        rw [cstring, ← List.take_append_drop n (strncpy buf src n), strncpy_take h,
          List.takeWhile_append_of_pos hall, List.length_append, hlen]
        exact Nat.le_add_right _ _
      rw [hc] at hle
      omega
    · rintro rfl
      omega

/-- `stpcpy` of `src` to the offset `off`, with the offset of the NUL that it has written -/
def stpcpy (buf : List Byte) (off : ℕ) (src : List Byte) : List Byte × ℕ :=
  (writeAt buf off (src ++ [0]), off + src.length)

theorem stpcpy_eq {buf : List Byte} {off : ℕ} (hoff : off ≤ buf.length) (src : List Byte) :
    stpcpy buf off src = (buf.take off ++ src ++ 0 :: buf.drop (off + src.length + 1), off + src.length) := by
  have hz : off - buf.length = 0 := by omega
  rw [stpcpy, writeAt, hz, List.replicate_zero, List.append_nil]
  simp [Nat.add_assoc]

end OsPractice.CString
