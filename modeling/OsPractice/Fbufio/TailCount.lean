/-
The number of lines that `tail` (`fbufio/tail.c`) is given. `strtol` reads it as a `long`, and the program keeps the low
32 bits of it: a large number becomes another one, or is taken for a negative one, and a negative number may be taken
for one that is not.

The arguments are those behind the program's name; the file can be opened and read. What is written for a number of
lines is `Tail.tail`.

Results:
- `tail_eq_file`: the numbers of lines for which the whole file is written;
- `nlines_of_denotes`: what is made of the argument;
- `last_lines_iff`: when the last `n` lines of a text file are written for the argument `n`;
- `final_newline_iff`: when a last line is written with its newline as without it;
- `large_counts`: when large and negative numbers are treated as they should be.
-/
import OsPractice.Fbufio.Tail
import OsPractice.Core.Decimal

namespace OsPractice.TailCount

open Bytes Lines Decimal Tail

/-! ## The program -/

/-- `nlines` for the text after `-n`; `none` when the program exits with an error -/
def nlines (arg : List Byte) : Option (BitVec 32) :=
  let (n, endptr) := strtoll arg
  let nlines := BitVec.ofInt 32 n
  if erange arg then none
  -- there are no digits
  else if endptr.length = arg.length then none
  else if nlines.toInt < 0 then none
  else some nlines

/-- what is written; `num` is the text after the first argument if there are three of them -/
def tailMain (num : Option (List Byte)) (file : List Byte) : Option (List Byte) :=
  match num with
  | none => some (tail file 10)
  | some arg => (nlines arg).map fun n => tail file n.toInt

/-- what is on the standard output when the program has ended -/
def written (num : Option (List Byte)) (file : List Byte) : List Byte := (tailMain num file).getD []

/-! ## The whole file -/

/-- the first newline is in the block with the beginning of the file; the blocks are counted from the end -/
def FirstBlock (file : List Byte) : Prop :=
  ∃ line rest, file = line ++ newline :: rest ∧ newline ∉ line ∧ file.length ≤ BUFSIZ * (rest.length / BUFSIZ + 1)

/-- fewer newlines than `n`, or as many and the first one is in the first block -/
def Whole (file : List Byte) (n : ℕ) : Prop :=
  file = [] ∨ file.count newline < n ∨ file.count newline = n ∧ FirstBlock file

theorem drop_eq_self_iff {l : List Byte} (hl : l ≠ []) (k : ℕ) : l.drop k = l ↔ k = 0 := by
  constructor
  · intro h
    have hlen := congrArg List.length h
    have hpos := List.length_pos_of_ne_nil hl
    rw [List.length_drop] at hlen
    omega
  · rintro rfl
    exact List.drop_zero

/-- the whole file is written -/
theorem tail_eq_file (file : List Byte) (n : ℕ) : tail file n = file ↔ Whole file n := by
  by_cases hfile : file = []
  · subst hfile
    refine iff_of_true ?_ (.inl rfl)
    rw [tail, copy_eq_drop, List.drop_nil]
  · rw [Whole, or_iff_right hfile]
    by_cases hfew : file.count newline < n
    · exact iff_of_true (tail_few hfew) (.inl hfew)
    · rw [or_iff_right hfew]
      rcases Nat.eq_zero_or_pos n with rfl | hn
      · -- nothing is written
        have hnone : tail file (0 : ℕ) = [] := by
          rw [tail, scan_done _ (by simp), copy_eq_drop, List.drop_length]
        rw [hnone]
        refine iff_of_false (Ne.symm hfile) ?_
        rintro ⟨hzero, line, rest, rfl, -, -⟩
        simp at hzero
      · obtain ⟨u, w, v, hl, hu, hw, hv⟩ := exists_nth_last hn (Nat.not_lt.1 hfew)
        rw [tail_line hl hu hw hv, drop_eq_self_iff hfile]
        have hcount : file.count newline = u.count newline + n := by
          rw [hl, List.count_append, List.count_append, List.count_cons_self, List.count_eq_zero.2 hw]
          omega
        constructor
        · intro hmax
          obtain rfl : u = [] := List.length_eq_zero_iff.1 (by omega)
          refine ⟨by simpa using hcount, w, v, hl, hw, by omega⟩
        · rintro ⟨hn, line, rest, hl', hline, hblock⟩
          obtain rfl : u = [] := eq_nil_of_terminated hu (by omega)
          rw [List.nil_append] at hl
          obtain ⟨rfl, rfl⟩ := first_unique hw hline (hl.symm.trans hl')
          rw [List.length_nil]
          omega

/-! ## The argument -/

/-- the `int` that is made of a `long` -/
def toInt32 (n : ℤ) : ℤ := (BitVec.ofInt 32 n).toInt

theorem nlines_of_denotes {arg : List Byte} {n : ℤ} (h : Denotes arg n) (hlow : - 2 ^ 63 ≤ n) (hup : n < 2 ^ 63) :
    nlines arg = if toInt32 n < 0 then none else some (BitVec.ofInt 32 n) := by
  obtain ⟨hstrtol, hnumber⟩ := h.strtoll
  have hclamp := clamp_eq_self hlow hup
  have hrange : erange arg = false := by simp [erange, hnumber, hclamp]
  have hne : arg.length ≠ 0 := by
    obtain ⟨blanks, sgn, ds, rfl, -, -, hds, -, -⟩ := h
    have := List.length_pos_of_ne_nil hds
    simp only [List.length_append]
    omega
  rw [nlines, hstrtol, hclamp]
  simp only [hrange, Bool.false_eq_true, if_false, List.length_nil, Ne.symm hne]
  rfl

/-- a number that a `long` cannot hold is an error -/
theorem nlines_overflow {arg : List Byte} {n : ℕ} (h : Denotes arg n) (hup : 2 ^ 63 ≤ n) : nlines arg = none := by
  obtain ⟨-, hnumber⟩ := h.strtoll
  have hclamp : clamp (n : ℤ) ≠ n := by
    rw [clamp]
    omega
  have hrange : erange arg = true := by simp [erange, hnumber, hclamp]
  simp [nlines, hrange]

/-- the `int` is not greater than the number -/
theorem toInt32_le (n : ℕ) : toInt32 n ≤ n := by
  rw [toInt32, BitVec.toInt_ofInt, Int.bmod]
  split_ifs <;> omega

theorem written_of_denotes {arg : List Byte} {n : ℕ} (h : Denotes arg n) (file : List Byte) :
    written (some arg) file = if n < 2 ^ 63 ∧ 0 ≤ toInt32 n then tail file (toInt32 n) else [] := by
  rw [written, tailMain]
  by_cases hup : n < 2 ^ 63
  · rw [nlines_of_denotes h (by omega) (by exact_mod_cast hup)]
    by_cases hneg : toInt32 n < 0
    · simp [hneg, not_le.2 hneg]
    · have hpos := not_lt.1 hneg
      rw [if_neg hneg, if_pos ⟨hup, hpos⟩]
      rfl
  · rw [nlines_overflow h (not_lt.1 hup), if_neg fun hok => hup hok.1]
    rfl

/-! ## Text files -/

/-- **When tail prints the last lines.** For a text file and any number of lines: the output is the last `n` lines
exactly when the file is empty, or the `int` that is made of the number is not negative, is the number or at least as
great as the number of lines in the file, and the first line asked for by it does not go over a block boundary. -/
theorem last_lines_iff {file : List Byte} (hfile : Terminated newline file) {arg : List Byte} {n : ℕ}
    (h : Denotes arg n) :
    written (some arg) file = lastLines newline n file ↔
      file = [] ∨ n < 2 ^ 63 ∧ 0 ≤ toInt32 n ∧ (toInt32 n = n ∨ file.count newline ≤ toInt32 n) ∧
        SameBlock file (toInt32 n).toNat := by
  rw [written_of_denotes h]
  by_cases hnil : file = []
  · subst hnil
    refine iff_of_true ?_ (.inl rfl)
    simp [tail, copy_eq_drop, lastLines, lines]
  · have hlines : 0 < file.count newline := by
      by_contra hzero
      exact hnil (eq_nil_of_terminated hfile (by omega))
    have hcount := count_lastLines hfile n
    rw [or_iff_right hnil]
    by_cases hok : n < 2 ^ 63 ∧ 0 ≤ toInt32 n
    · rw [if_pos hok, and_iff_right hok.1, and_iff_right hok.2]
      have hle := toInt32_le n
      obtain ⟨m, hm⟩ := Int.eq_ofNat_of_zero_le hok.2
      rw [hm] at hle ⊢
      rw [Int.toNat_natCast]
      by_cases hsame : (m : ℤ) = n ∨ (file.count newline : ℤ) ≤ m
      · have hlast : lastLines newline m file = lastLines newline n file := by
          rcases hsame with hmn | hall
          · rw [Nat.cast_inj.1 hmn]
          · rw [lastLines_all, lastLines_all] <;> rw [length_lines hfile] <;> omega
        rw [and_iff_right hsame, ← hlast, tail_iff hfile]
      · -- fewer lines are written than asked for
        refine iff_of_false (fun he => ?_) fun hr => hsame hr.1
        have hfewer := count_tail_le file m
        rw [he, hcount] at hfewer
        omega
    · -- nothing is written, and the number is not 0
      rw [if_neg hok]
      refine iff_of_false (fun he => ?_) fun hr => hok ⟨hr.1, hr.2.1⟩
      rw [← he, List.count_nil] at hcount
      obtain rfl : n = 0 := by omega
      exact hok ⟨by norm_num, by decide⟩

/-- three lines, and two are asked for -/
theorem last_lines_two : written (some [50]) [97, newline, 98, newline, 99, newline] = [98, newline, 99, newline] := by
  have hfile : Terminated newline [97, newline, 98, newline, 99, newline] :=
    terminated_concat newline [97, newline, 98, newline, 99]
  have hdenotes : Denotes [50] (2 : ℕ) := ⟨[], [], [50], rfl, by simp, by simp, by simp, by decide, rfl⟩
  have hblock := sameBlock_of_short hfile (by decide) 2
  exact (last_lines_iff hfile hdenotes).2 (.inr ⟨by norm_num, by decide, .inl (by decide), hblock⟩)

/-- one line, longer than a block -/
def longLine : List Byte := List.replicate 2000 97 ++ [newline]

/-- the file ends with one line, and its end is written -/
theorem long_line_cut : Terminated newline longLine ∧ lastLines newline 1 longLine = longLine ∧
    written (some [49]) longLine = longLine.drop 977 ∧
    ¬ written (some [49]) longLine = lastLines newline 1 longLine := by
  have hw : newline ∉ List.replicate 2000 (97 : Byte) := by
    intro h
    exact absurd (List.eq_of_mem_replicate h) (by decide)
  have ht : Terminated newline longLine := terminated_concat _ _
  have hl : longLine = [] ++ (List.replicate 2000 97 ++ newline :: []) := rfl
  have hlen : longLine.length = 2001 := by
    rw [longLine, List.length_append, List.length_replicate]
    rfl
  have hlast := lastLines_eq_drop (n := 1) hl ht (terminated_nil _) hw rfl
  have htail := tail_line (n := 1) hl (terminated_nil _) hw rfl
  rw [List.length_nil, List.drop_zero] at hlast
  have hstart :
      max ([] : List Byte).length (longLine.length - BUFSIZ * (([] : List Byte).length / BUFSIZ + 1)) = 977 := by
    rw [hlen]
    rfl
  rw [hstart, Nat.cast_one] at htail
  have hdenotes : Denotes [49] (1 : ℕ) := ⟨[], [], [49], rfl, by simp, by simp, by simp, by decide, rfl⟩
  have hwritten : written (some [49]) longLine = longLine.drop 977 := by
    rw [written_of_denotes hdenotes, if_pos ⟨by norm_num, by decide⟩]
    exact htail
  refine ⟨ht, hlast, hwritten, ?_⟩
  rw [hwritten, hlast]
  intro h
  have := congrArg List.length h
  rw [List.length_drop, hlen] at this
  omega

/-- **When a last line is printed alike.** A file and the file with one more newline lead to the same output, up to
that newline, exactly when a `long` holds the number, fewer newlines are in the file than the `int` that is made of it
and, if that asks for all lines, the first one does not go over a block boundary. -/
theorem final_newline_iff (file : List Byte) {arg : List Byte} {n : ℕ} (h : Denotes arg n) :
    written (some arg) file ++ [newline] = written (some arg) (file ++ [newline]) ↔
      n < 2 ^ 63 ∧ file.count newline < toInt32 n ∧ SameBlock (file ++ [newline]) (toInt32 n).toNat := by
  rw [written_of_denotes h, written_of_denotes h]
  by_cases hok : n < 2 ^ 63 ∧ 0 ≤ toInt32 n
  · rw [if_pos hok, if_pos hok, and_iff_right hok.1]
    obtain ⟨m, hm⟩ := Int.eq_ofNat_of_zero_le hok.2
    rw [hm, Int.toNat_natCast, Nat.cast_lt]
    rcases Nat.eq_zero_or_pos m with rfl | hpos
    · -- no lines are asked for, and none are written
      refine iff_of_false (fun he => ?_) fun hr => absurd hr.1 (Nat.not_lt_zero _)
      have hfewer := count_tail_le (file ++ [newline]) 0
      rw [← he, List.count_append, List.count_singleton_self] at hfewer
      omega
    · exact final_iff file hpos
  · rw [if_neg hok, if_neg hok]
    refine iff_of_false (by simp) fun hr => hok ⟨hr.1, ?_⟩
    omega

/-- three lines, the last one without its newline, and three are asked for -/
theorem final_newline_three : ¬ Terminated newline [97, newline, 98, newline, 99] ∧
    written (some [51]) [97, newline, 98, newline, 99] ++ [newline] =
      written (some [51]) ([97, newline, 98, newline, 99] ++ [newline]) := by
  have ht : ¬ Terminated newline [97, newline, 98, newline, 99] := fun h => absurd (h 99 rfl) (by decide)
  have hdenotes : Denotes [51] (3 : ℕ) := ⟨[], [], [51], rfl, by simp, by simp, by simp, by decide, rfl⟩
  have hblock := sameBlock_of_short (terminated_concat newline [97, newline, 98, newline, 99]) (by decide) 3
  exact ⟨ht, (final_newline_iff _ hdenotes).2 ⟨by norm_num, by decide, hblock⟩⟩

/-- two lines, the last one without its newline: both are printed -/
theorem final_line_more : ¬ Terminated newline [97, newline, 98] ∧
    written (some [49]) [97, newline, 98] = [97, newline, 98] ∧
    written (some [49]) ([97, newline, 98] ++ [newline]) = [98, newline] ∧
    ¬ written (some [49]) [97, newline, 98] ++ [newline] = written (some [49]) ([97, newline, 98] ++ [newline]) := by
  have ht : ¬ Terminated newline [97, newline, 98] := fun h => absurd (h 98 rfl) (by decide)
  have h1 : written (some [49]) [97, newline, 98] = [97, newline, 98] :=
    tail_line (n := 1) (u := []) (w := [97]) (v := [98]) rfl (terminated_nil _) (by decide) (by decide)
  have h2 : written (some [49]) ([97, newline, 98] ++ [newline]) = [98, newline] :=
    tail_line (n := 1) (u := [97, newline]) (w := [98]) (v := []) rfl (terminated_concat newline [97]) (by decide)
      (by decide)
  refine ⟨ht, h1, h2, ?_⟩
  rw [h1, h2]
  decide

/-! ## Large counts -/

/-- **Large counts.** For every file and every text that denotes a `long`: the program exits with an error for a
negative number and writes the whole file for a number greater than that of the newlines, if and only if the low 32 bits
of the number, taken as an `int`, are negative in the one case, and in the other not negative and enough for the whole
file. -/
theorem large_counts (file : List Byte) {arg : List Byte} {n : ℤ} (h : Denotes arg n) (hlow : - 2 ^ 63 ≤ n)
    (hup : n < 2 ^ 63) :
    ((n < 0 → tailMain (some arg) file = none) ∧
        (file.count newline < n → tailMain (some arg) file = some file)) ↔
      (n < 0 → toInt32 n < 0) ∧
        (file.count newline < n → 0 ≤ toInt32 n ∧ Whole file (toInt32 n).toNat) := by
  rw [tailMain, nlines_of_denotes h hlow hup]
  by_cases hneg : toInt32 n < 0
  · rw [if_pos hneg, Option.map_none]
    simp [hneg, not_le.2 hneg]
  · have htail : (BitVec.ofInt 32 n).toInt = ((toInt32 n).toNat : ℤ) := (Int.toNat_of_nonneg (not_lt.1 hneg)).symm
    rw [if_neg hneg, Option.map_some, htail, Option.some_inj, tail_eq_file]
    simp [hneg, not_lt.1 hneg]

/-- three lines of a file that has one -/
theorem large_counts_three : tailMain (some [51]) [97, newline] = some [97, newline] := by
  have hdenotes : Denotes [51] 3 := ⟨[], [], [51], rfl, by simp, by simp, by simp, by decide, rfl⟩
  have hright := (large_counts [97, newline] hdenotes (by norm_num) (by norm_num)).2
    ⟨fun h => absurd h (by decide), fun _ => ⟨by decide, .inr (.inl (by decide))⟩⟩
  exact hright.2 (by decide)

/-- `4294967296`, which is `2 ^ 32`: nothing is written -/
theorem not_large_counts :
    ¬ ∀ (file arg : List Byte) (n : ℤ), Denotes arg n → - 2 ^ 63 ≤ n → n < 2 ^ 63 →
      (n < 0 → tailMain (some arg) file = none) ∧
        (file.count newline < n → tailMain (some arg) file = some file) := by
  intro h
  have hdenotes : Denotes (numeral (2 ^ 32)) (2 ^ 32 : ℕ) := by
    have := (numeral_canonical (2 ^ 32)).denotes
    rwa [value_numeral] at this
  have hall := h [97] _ _ hdenotes (by norm_num) (by norm_num)
  have hright := (large_counts [97] hdenotes (by norm_num) (by norm_num)).1 hall
  have hwhole := (hright.2 (by decide)).2
  rcases hwhole with hnil | hfew | ⟨-, line, rest, hline, -, -⟩
  · cases hnil
  · exact absurd hfew (by decide)
  · have hmem : newline ∈ ([97] : List Byte) := by rw [hline]; simp
    exact absurd hmem (by decide)

end OsPractice.TailCount
