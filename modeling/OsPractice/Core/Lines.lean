/-
Texts as lists of lines. Library: nothing here names a program.

A line ends with the character `e`, which belongs to it; the last line may be without one. The lines of a text, put
together, are the text.

Results:
- `lines_flatten`, `length_lines`: the lines make up the text, as many as there are ends of lines;
- `lines_line`, `lines_append`: the lines of a text that begins with whole lines;
- `exists_nth_last`: the place of the `n`-th end of line from the end of the text;
- `lastLines_eq_drop`, `count_lastLines`: the last `n` lines are what follows that place's line's beginning, and as
  many;
- `fgets_some`, `fgets_none`, `fgets_line`: what `fgets` takes off a text, and when it finds the end.
-/
import Mathlib.Tactic

namespace OsPractice.Lines

variable {A : Type} {e : A} {l l' w : List A} {n : ℕ}

/-- empty, or with an end of line at the end -/
def Terminated (e : A) (l : List A) : Prop := ∀ a, l.getLast? = some a → a = e

@[simp] theorem terminated_nil (e : A) : Terminated e [] := by simp [Terminated]

@[simp] theorem terminated_concat (e : A) (l : List A) : Terminated e (l ++ [e]) := by simp [Terminated]

theorem Terminated.eq_concat (h : Terminated e l) (hl : l ≠ []) : ∃ l', l = l' ++ [e] := by
  rcases List.eq_nil_or_concat l with rfl | ⟨l', a, rfl⟩
  · exact absurd rfl hl
  · obtain rfl : a = e := h a (by simp)
    exact ⟨l', by simp⟩

theorem Terminated.of_cons {a : A} (h : Terminated e (a :: l)) : Terminated e l := by
  intro b hb
  refine h b ?_
  cases l with
  | nil => cases hb
  | cons c l => simpa using hb

/-- the first end of line of a text is in one place -/
theorem first_unique {w' v v' : List A} (hw : e ∉ w) (hw' : e ∉ w') (h : w ++ e :: v = w' ++ e :: v') :
    w = w' ∧ v = v' := by
  induction w generalizing w' with
  | nil =>
    cases w' with
    | nil => simpa using h
    | cons b w' =>
      obtain rfl : e = b := (List.cons.inj h).1
      exact absurd List.mem_cons_self hw'
  | cons a w ih =>
    cases w' with
    | nil =>
      obtain rfl : a = e := (List.cons.inj h).1
      exact absurd List.mem_cons_self hw
    | cons b w' =>
      obtain ⟨rfl, htail⟩ := List.cons.inj h
      obtain ⟨rfl, rfl⟩ := ih (List.not_mem_of_not_mem_cons hw) (List.not_mem_of_not_mem_cons hw') htail
      exact ⟨rfl, rfl⟩

theorem terminated_of_append (h : Terminated e (w ++ e :: l)) : Terminated e l := by
  intro a ha
  refine h a ?_
  cases l with
  | nil => cases ha
  | cons b l => simpa using ha

variable [DecidableEq A]

def lines (e : A) : List A → List (List A)
  | [] => []
  | a :: l =>
    if a = e then [a] :: lines e l
    else
      match lines e l with
      | [] => [[a]]
      | x :: xs => (a :: x) :: xs

/-- the last `n` lines, all of them if there are not as many -/
def lastLines (e : A) (n : ℕ) (l : List A) : List A := ((lines e l).drop ((lines e l).length - n)).flatten

theorem lines_flatten (e : A) (l : List A) : (lines e l).flatten = l := by
  induction l with
  | nil => rfl
  | cons a l ih =>
    simp only [lines]
    split_ifs
    · simp [ih]
    · split
      · rename_i hl
        rw [hl] at ih
        simp [← ih]
      · rename_i x xs hl
        rw [hl] at ih
        simp [← ih]

/-- a text that begins with a whole line -/
theorem lines_line (hw : e ∉ w) (l : List A) : lines e (w ++ e :: l) = (w ++ [e]) :: lines e l := by
  induction w with
  | nil => simp [lines]
  | cons a w ih =>
    obtain ⟨hae, hw⟩ := List.ne_and_not_mem_of_not_mem_cons hw
    simp [lines, hae.symm, ih hw]

/-- a terminated text is empty or begins with a whole line -/
theorem Terminated.cases (h : Terminated e l) : l = [] ∨ ∃ w l', l = w ++ e :: l' ∧ e ∉ w ∧ Terminated e l' := by
  induction l with
  | nil => exact .inl rfl
  | cons a l ih =>
    right
    by_cases ha : a = e
    · exact ⟨[], l, by simp [ha], List.not_mem_nil, h.of_cons⟩
    · rcases ih h.of_cons with rfl | ⟨w, l', rfl, hw, hl'⟩
      · exact absurd (h a rfl) ha
      · refine ⟨a :: w, l', rfl, ?_, hl'⟩
        simpa [hw] using fun he => ha he.symm

theorem lines_append (h : Terminated e l) (l' : List A) : lines e (l ++ l') = lines e l ++ lines e l' := by
  induction hn : l.length using Nat.strong_induction_on generalizing l with
  | _ n ih =>
    rcases h.cases with rfl | ⟨w, l₁, rfl, hw, hl₁⟩
    · rfl
    · rw [List.append_assoc, List.cons_append, lines_line hw, lines_line hw, List.cons_append]
      rw [ih l₁.length (by simp [← hn]; omega) hl₁ rfl]

/-- every line of a terminated text ends one -/
theorem length_lines (h : Terminated e l) : (lines e l).length = l.count e := by
  induction hn : l.length using Nat.strong_induction_on generalizing l with
  | _ n ih =>
    rcases h.cases with rfl | ⟨w, l₁, rfl, hw, hl₁⟩
    · rfl
    · rw [lines_line hw, List.length_cons, ih l₁.length (by simp [← hn]; omega) hl₁ rfl]
      simp [List.count_eq_zero.2 hw]

/-- the `n`-th end of line from the end of the text, with its line -/
theorem exists_nth_last (hn : 0 < n) (hl : n ≤ l.count e) :
    ∃ u w v, l = u ++ (w ++ e :: v) ∧ Terminated e u ∧ e ∉ w ∧ v.count e + 1 = n := by
  induction l with
  | nil => simp at hl; omega
  | cons a l ih =>
    by_cases h : n ≤ l.count e
    · obtain ⟨u, w, v, rfl, hu, hw, hv⟩ := ih h
      rcases List.eq_nil_or_concat u with rfl | ⟨u', b, rfl⟩
      · by_cases ha : a = e
        · subst ha
          exact ⟨[a], w, v, rfl, terminated_concat a [], hw, hv⟩
        · refine ⟨[], a :: w, v, rfl, hu, ?_, hv⟩
          simpa [hw] using fun he => ha he.symm
      · refine ⟨a :: (u' ++ [b]), w, v, by simp, ?_, hw, hv⟩
        intro c hc
        rw [List.getLast?_cons_of_ne_nil (by simp)] at hc
        exact hu c (by simpa using hc)
    · have ha : a = e := by
        by_contra ha
        rw [List.count_cons_of_ne ha] at hl
        exact h hl
      subst ha
      rw [List.count_cons_self] at hl
      exact ⟨[], [], l, rfl, terminated_nil a, List.not_mem_nil, by omega⟩

/-- the last `n` lines -/
theorem lastLines_eq_drop {u w v : List A} (hl : l = u ++ (w ++ e :: v)) (h : Terminated e l) (hu : Terminated e u)
    (hw : e ∉ w) (hv : v.count e + 1 = n) : lastLines e n l = l.drop u.length := by
  have hvt : Terminated e v := terminated_of_append (w := u ++ w) (by rw [List.append_assoc, ← hl]; exact h)
  have hlines : lines e l = lines e u ++ (w ++ [e]) :: lines e v := by
    rw [hl, lines_append hu, lines_line hw]
  have hlen : (lines e l).length - n = (lines e u).length := by
    rw [hlines, List.length_append, List.length_cons, length_lines hvt]
    omega
  calc lastLines e n l = ((w ++ [e]) :: lines e v).flatten := by rw [lastLines, hlen, hlines, List.drop_left]
    _ = (w ++ [e]) ++ v := by rw [List.flatten_cons, lines_flatten]
    _ = w ++ e :: v := by rw [List.append_assoc, List.singleton_append]
    _ = l.drop u.length := by rw [hl, List.drop_left]

theorem lastLines_all (h : (lines e l).length ≤ n) : lastLines e n l = l := by
  rw [lastLines, Nat.sub_eq_zero_of_le h, List.drop_zero, lines_flatten]

/-- the last `n` lines are `n`, or all there are -/
theorem count_lastLines (h : Terminated e l) (n : ℕ) : (lastLines e n l).count e = min n (l.count e) := by
  by_cases hn : l.count e ≤ n
  · rw [lastLines_all (by rwa [length_lines h]), min_eq_right hn]
  · rcases Nat.eq_zero_or_pos n with rfl | hpos
    · simp [lastLines]
    · obtain ⟨u, w, v, hl, hu, hw, hv⟩ := exists_nth_last hpos (not_le.1 hn).le
      have hcount : (w ++ e :: v).count e = n := by simp [List.count_eq_zero.2 hw, hv]
      rw [lastLines_eq_drop hl h hu hw hv, hl, List.drop_left, hcount, min_eq_left]
      rw [← hl]
      exact (not_le.1 hn).le

/-! ## Reading line by line -/

/-- the first line of a text, at most `n` characters of it, and what follows -/
def chunk (e : A) : ℕ → List A → List A × List A
  | 0, l => ([], l)
  | _ + 1, [] => ([], [])
  | n + 1, a :: l => if a = e then ([a], l) else (a :: (chunk e n l).1, (chunk e n l).2)

/-- `fgets` into a buffer of `n` characters: the characters before the NUL and what is left to read; `none` at the end
of the file -/
def fgets (e : A) (n : ℕ) (l : List A) : Option (List A × List A) :=
  match n, l with
  | 0, _ => none
  -- there is room for the NUL only: nothing is read
  | 1, l => some ([], l)
  | _ + 2, [] => none
  | n + 2, a :: l => some (chunk e (n + 1) (a :: l))

theorem chunk_append (e : A) (n : ℕ) (l : List A) : (chunk e n l).1 ++ (chunk e n l).2 = l := by
  induction n generalizing l with
  | zero => rfl
  | succ n ih =>
    cases l with
    | nil => rfl
    | cons a l =>
      simp only [chunk]
      split_ifs
      · rfl
      · rw [List.cons_append, ih]

theorem chunk_length (e : A) (n : ℕ) (l : List A) : (chunk e n l).1.length ≤ n := by
  induction n generalizing l with
  | zero => exact le_rfl
  | succ n ih =>
    cases l with
    | nil => exact Nat.zero_le _
    | cons a l =>
      simp only [chunk]
      split_ifs
      · exact Nat.succ_le_succ (Nat.zero_le n)
      · exact Nat.succ_le_succ (ih l)

theorem fgets_some {c rest : List A} (h : fgets e n l = some (c, rest)) : c ++ rest = l ∧ c.length < n := by
  match n, l, h with
  | 1, l, h =>
    cases h
    exact ⟨rfl, Nat.one_pos⟩
  | n + 2, a :: l, h =>
    rw [fgets, Option.some_inj] at h
    have happ := chunk_append e (n + 1) (a :: l)
    have hlen := chunk_length e (n + 1) (a :: l)
    rw [h] at happ hlen
    exact ⟨happ, Nat.lt_succ_of_le hlen⟩

theorem fgets_none (hn : 0 < n) (h : fgets e n l = none) : l = [] := by
  match n, l, hn, h with
  | n + 2, [], _, _ => rfl

/-- a file that is read to its end is read in as many calls as it has characters, at most -/
theorem fgets_length {c rest : List A} (hn : 1 < n) (h : fgets e n l = some (c, rest)) : rest.length < l.length := by
  match n, l, hn, h with
  | n + 2, a :: l, _, h =>
    rw [fgets, Option.some_inj] at h
    have hrest := congrArg Prod.snd h
    have happ := congrArg List.length (chunk_append e n l)
    rw [List.length_append] at happ
    simp only [chunk] at hrest
    split_ifs at hrest
    · rw [← hrest, List.length_cons]
      exact Nat.lt_succ_self _
    · rw [← hrest, List.length_cons]
      dsimp only
      omega

theorem chunk_line (hw : e ∉ w) (hn : w.length < n) (l : List A) : chunk e n (w ++ e :: l) = (w ++ [e], l) := by
  induction w generalizing n with
  | nil =>
    obtain ⟨n, rfl⟩ : ∃ m, n = m + 1 := ⟨n - 1, by simp at hn; omega⟩
    simp [chunk]
  | cons a w ih =>
    obtain ⟨n, rfl⟩ : ∃ m, n = m + 1 := ⟨n - 1, by omega⟩
    obtain ⟨hae, hw⟩ := List.ne_and_not_mem_of_not_mem_cons hw
    rw [List.length_cons] at hn
    simp only [List.cons_append, chunk, if_neg hae.symm, ih hw (Nat.lt_of_succ_lt_succ hn)]

/-- a line for which there is room is read with its end -/
theorem fgets_line (hw : e ∉ w) (hn : w.length + 1 < n) (l : List A) :
    fgets e n (w ++ e :: l) = some (w ++ [e], l) := by
  obtain ⟨n, rfl⟩ : ∃ m, n = m + 2 := ⟨n - 2, by omega⟩
  have hchunk : chunk e (n + 1) (w ++ e :: l) = (w ++ [e], l) := chunk_line hw (by omega) l
  cases w with
  | nil => exact congrArg some hchunk
  | cons a w => exact congrArg some hchunk

end OsPractice.Lines
