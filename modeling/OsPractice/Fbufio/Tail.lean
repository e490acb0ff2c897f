/-
The scan and the copy of `tail` (`fbufio/tail.c`). The program reads the file backwards, a block of `BUFSIZ` bytes at
a time, counts newlines until it has seen `nlines` of them and stops at the next one, and copies what follows to its
output.

The loop over the blocks ends as soon as the count is used up at the end of a block, so the output can begin in the
middle of a line: at the beginning of the block that the `nlines`-th newline from the end is in. A last line without a
newline is not counted.

Every read returns as many bytes as it asks for, up to the end of the file. Errors of system calls are not modelled.

Here the number of lines is what the program has made of its argument. It is never lower than -1 in the scan, so an
integer without a bound stands for the `int`.

Results:
- `scan_line`, `scan_few`: where the output begins, in any file;
- `tail_iff`: the output is the last `n` lines exactly when the first of them lies within one block;
- `final_iff`: a last line is printed with its newline as without it exactly when all lines are printed;
- `count_tail_le`: no more lines than `n` end in the output.
-/
import OsPractice.Core.Bytes
import OsPractice.Core.Lines

namespace OsPractice.Tail

open Bytes Lines

def BUFSIZ : ℕ := 1024

def newline : Byte := 10

/-! ## The program -/

/-- the loop over the bytes of `buf` before the index `i`, from the last one on: what is left of `nlines`, and the index
behind the newline at which the loop is left, if it is -/
def scanBlock (buf : List Byte) : ℕ → ℤ → ℤ × Option ℕ
  | 0, nlines => (nlines, none)
  | i + 1, nlines =>
    if buf[i]? = some newline then
      if nlines - 1 < 0 then (nlines - 1, some (i + 1)) else scanBlock buf i (nlines - 1)
    else scanBlock buf i nlines

/-- the size of the block before `pos` -/
def bytesToRead (pos : ℕ) : ℕ := if BUFSIZ < pos then BUFSIZ else pos

theorem bytesToRead_pos {pos : ℕ} (h : 0 < pos) : 0 < bytesToRead pos := by
  unfold bytesToRead
  split_ifs
  · decide
  · exact h

theorem bytesToRead_le (pos : ℕ) : bytesToRead pos ≤ pos := by
  unfold bytesToRead
  split_ifs with h
  · exact h.le
  · exact le_rfl

/-- the loop over the blocks before `pos`, from the last one on: the offset at which the output begins -/
def scan (file : List Byte) (pos : ℕ) (nlines : ℤ) : ℕ :=
  if _h : 0 < pos ∧ 0 < nlines then
    let buf := readAt file (pos - bytesToRead pos) (bytesToRead pos)
    match scanBlock buf buf.length nlines with
    | (_, some i) => pos - bytesToRead pos + i -- nlines is negative, which ends the loop
    | (nlines, none) => scan file (pos - bytesToRead pos) nlines
  else pos
termination_by pos
decreasing_by exact Nat.sub_lt _h.1 (bytesToRead_pos _h.1)

/-- the loop that copies the file from `pos` on -/
def copy (file : List Byte) (pos : ℕ) : List Byte :=
  let buf := readAt file pos BUFSIZ
  if _h : buf.length = 0 then [] else buf ++ copy file (pos + buf.length)
termination_by file.length - pos
decreasing_by
  have hlen : (readAt file pos BUFSIZ).length = min BUFSIZ (file.length - pos) := by simp [readAt]
  have hpos : 0 < (readAt file pos BUFSIZ).length := Nat.pos_of_ne_zero _h
  omega

/-- what is written for a file and the number of lines in `nlines` -/
def tail (file : List Byte) (nlines : ℤ) : List Byte := copy file (scan file file.length nlines)

/-! ## The copy -/

theorem copy_eq_drop (file : List Byte) (pos : ℕ) : copy file pos = file.drop pos := by
  induction hk : file.length - pos using Nat.strong_induction_on generalizing pos with
  | _ k ih =>
    have hlen : (readAt file pos BUFSIZ).length = min BUFSIZ (file.length - pos) := by simp [readAt]
    have hB : BUFSIZ = 1024 := rfl
    rw [copy]
    by_cases h : (readAt file pos BUFSIZ).length = 0
    · simp only [h, dite_true]
      symm
      rw [List.drop_eq_nil_iff]
      omega
    · simp only [h, dite_false]
      rw [ih _ (by omega) _ rfl, ← List.drop_drop]
      exact List.prefix_iff_eq_append.1 (List.take_prefix _ _)

/-! ## One block -/

theorem scanBlock_append (x y z : List Byte) {c : ℤ} (hc : y.count newline ≤ c) :
    scanBlock (x ++ (y ++ z)) (x.length + y.length) c = scanBlock (x ++ (y ++ z)) x.length (c - y.count newline) := by
  induction y using List.reverseRecOn generalizing z c with
  | nil => simp
  | append_singleton y b ih =>
    have hget : (x ++ (y ++ [b] ++ z))[x.length + y.length]? = some b := by
      rw [List.getElem?_append_right (by omega)]
      simp
    have hassoc : x ++ (y ++ [b] ++ z) = x ++ (y ++ (b :: z)) := by simp
    rw [List.length_append, List.length_singleton, ← Nat.add_assoc, scanBlock, hget]
    rw [List.count_append, Nat.cast_add] at hc ⊢
    by_cases hb : b = newline
    · subst hb
      rw [List.count_singleton_self, Nat.cast_one] at hc ⊢
      rw [if_pos rfl, if_neg (by omega), hassoc, ih (newline :: z) (by omega)]
      congr 1
      ring
    · have hzero : List.count newline [b] = 0 := by simp [hb]
      rw [hzero, Nat.cast_zero, add_zero] at hc ⊢
      rw [if_neg (by simpa using hb), hassoc, ih (b :: z) hc]

theorem scanBlock_none {buf : List Byte} {c : ℤ} (hc : buf.count newline ≤ c) :
    scanBlock buf buf.length c = (c - buf.count newline, none) := by
  have h := scanBlock_append [] buf [] hc
  simpa [scanBlock] using h

/-- the newline after as many as the counter says -/
theorem scanBlock_some (x y : List Byte) :
    scanBlock (x ++ newline :: y) (x ++ newline :: y).length (y.count newline) = (-1, some (x.length + 1)) := by
  have h := scanBlock_append (x ++ [newline]) y [] (c := y.count newline) le_rfl
  have hassoc : x ++ [newline] ++ (y ++ []) = x ++ newline :: y := by simp
  have hlen : (x ++ [newline]).length + y.length = (x ++ newline :: y).length := by simp; omega
  rw [hassoc, hlen] at h
  rw [h, List.length_append, List.length_singleton, scanBlock]
  simp

/-! ## All blocks -/

theorem readAt_mid (x y z : List Byte) : readAt (x ++ (y ++ z)) x.length y.length = y := by
  simp [readAt]

theorem exists_suffix {l : List Byte} {k : ℕ} (h : k ≤ l.length) : ∃ x y, l = x ++ y ∧ y.length = k := by
  refine ⟨l.take (l.length - k), l.drop (l.length - k), (List.take_append_drop _ _).symm, ?_⟩
  rw [List.length_drop]
  omega

theorem scan_done (file : List Byte) {pos : ℕ} {nlines : ℤ} (h : ¬ (0 < pos ∧ 0 < nlines)) :
    scan file pos nlines = pos := by
  rw [scan, dif_neg h]

/-- one round of the loop over the blocks: the block `y` after `x` -/
theorem scan_block (x y z : List Byte) {c : ℤ} (hy : y.length = bytesToRead (x.length + y.length))
    (hpos : 0 < x.length + y.length) (hc : 0 < c) :
    scan (x ++ (y ++ z)) (x.length + y.length) c =
      match scanBlock y y.length c with
      | (_, some i) => x.length + i
      | (c', none) => scan (x ++ (y ++ z)) x.length c' := by
  rw [scan, dif_pos ⟨hpos, hc⟩, ← hy, Nat.add_sub_cancel, readAt_mid]

/-- fewer newlines than are to be counted: the output is the whole file -/
theorem scan_few (v z : List Byte) {c : ℤ} (hc : v.count newline < c) : scan (v ++ z) v.length c = 0 := by
  induction hk : v.length using Nat.strong_induction_on generalizing v z c with
  | _ k ih =>
    subst hk
    by_cases hv : v.length = 0
    · rw [scan_done _ (by omega), hv]
    · obtain ⟨x, y, rfl, hy⟩ := exists_suffix (bytesToRead_le v.length)
      have hpos := bytesToRead_pos (Nat.pos_of_ne_zero hv)
      rw [List.count_append, Nat.cast_add] at hc
      rw [List.length_append] at hy hv hpos ⊢
      rw [List.append_assoc, scan_block x y z hy (by omega) (by omega), scanBlock_none (by omega)]
      exact ih x.length (by rw [List.length_append]; omega) x (y ++ z) (by omega) rfl

/-- the block with the last newline to be counted, which is between `x` and `v` -/
theorem scanBlock_last {x : List Byte} (v : List Byte) (hx : newline ∉ x) :
    scanBlock (x ++ newline :: v) (x ++ newline :: v).length (v.count newline + 1) = (0, none) := by
  have hcount : (x ++ newline :: v).count newline = v.count newline + 1 := by simp [List.count_eq_zero.2 hx]
  rw [scanBlock_none (by omega), hcount]
  simp

/-- as `scanBlock_last`, with one more newline in the block, after `x` -/
theorem scanBlock_next (x : List Byte) {w : List Byte} (v : List Byte) (hw : newline ∉ w) :
    scanBlock (x ++ newline :: (w ++ newline :: v)) (x ++ newline :: (w ++ newline :: v)).length
      (v.count newline + 1) = (-1, some (x.length + 1)) := by
  have hcount : ((w ++ newline :: v).count newline : ℤ) = v.count newline + 1 := by
    simp [List.count_eq_zero.2 hw]
  rw [← hcount]
  exact scanBlock_some x _

/-- **Where the output begins.** The newline between `w` and `v` is the last one to be counted. -/
theorem scan_line {u w : List Byte} (v z : List Byte) (hu : Terminated newline u) (hw : newline ∉ w) :
    scan (u ++ w ++ newline :: v ++ z) (u ++ w ++ newline :: v).length (v.count newline + 1) =
      max u.length ((u ++ w ++ newline :: v).length - BUFSIZ * (v.length / BUFSIZ + 1)) := by
  induction hk : v.length using Nat.strong_induction_on generalizing v z with
  | _ k ih =>
    subst hk
    have hB : BUFSIZ = 1024 := rfl
    have hpos : (u ++ w ++ newline :: v).length = u.length + w.length + 1 + v.length := by simp; omega
    generalize hn : (u ++ w ++ newline :: v).length = n at hpos ⊢
    have hle := bytesToRead_le n
    have hcases : bytesToRead n = BUFSIZ ∧ BUFSIZ < n ∨ bytesToRead n = n ∧ n ≤ BUFSIZ := by
      unfold bytesToRead
      split_ifs <;> omega
    by_cases hk : bytesToRead n ≤ v.length
    · -- the newline is in an earlier block
      have hfull : bytesToRead n = BUFSIZ := by omega
      obtain ⟨v₁, v₂, rfl, hv₂⟩ := exists_suffix hk
      have hfile : u ++ w ++ newline :: (v₁ ++ v₂) ++ z = (u ++ w ++ newline :: v₁) ++ (v₂ ++ z) := by simp
      have hlen : n = (u ++ w ++ newline :: v₁).length + v₂.length := by
        rw [← hn]
        simp
        omega
      have hblock : v₂.length = BUFSIZ := hv₂.trans hfull
      have hvlen : (v₁ ++ v₂).length = v₁.length + BUFSIZ := by rw [List.length_append, hblock]
      have hdiv : (v₁.length + BUFSIZ) / BUFSIZ = v₁.length / BUFSIZ + 1 := Nat.add_div_right _ (by decide)
      have hc : (v₁.count newline + v₂.count newline + 1 - v₂.count newline : ℤ) = v₁.count newline + 1 := by ring
      rw [hlen] at hv₂
      have hround : scan (u ++ w ++ newline :: v₁ ++ (v₂ ++ z)) n ((v₁ ++ v₂).count newline + 1) =
          scan (u ++ w ++ newline :: v₁ ++ (v₂ ++ z)) (u ++ w ++ newline :: v₁).length (v₁.count newline + 1) := by
        rw [hlen, scan_block _ v₂ z hv₂ (by omega) (by omega), List.count_append, Nat.cast_add,
          scanBlock_none (by omega)]
        simp only [hc]
      calc scan (u ++ w ++ newline :: (v₁ ++ v₂) ++ z) n ((v₁ ++ v₂).count newline + 1)
        _ = scan (u ++ w ++ newline :: v₁ ++ (v₂ ++ z)) (u ++ w ++ newline :: v₁).length (v₁.count newline + 1) := by
          rw [hfile, hround]
        _ = max u.length ((u ++ w ++ newline :: v₁).length - BUFSIZ * (v₁.length / BUFSIZ + 1)) :=
          ih v₁.length (by omega) v₁ (v₂ ++ z) rfl
        _ = max u.length (n - BUFSIZ * ((v₁ ++ v₂).length / BUFSIZ + 1)) := by
          rw [hlen, hvlen, hdiv, hblock, Nat.mul_add_one BUFSIZ (v₁.length / BUFSIZ + 1), Nat.add_sub_add_right]
    · -- the newline is in this block, which begins after `p`
      obtain ⟨p, x, hpx, hx⟩ := exists_suffix (l := u ++ w) (k := bytesToRead n - 1 - v.length)
        (by rw [List.length_append]; omega)
      have hfile : u ++ w ++ newline :: v ++ z = p ++ ((x ++ newline :: v) ++ z) := by rw [hpx]; simp
      have hlen : n = p.length + (x ++ newline :: v).length := by
        rw [← hn, hpx]
        simp
      have hy : (x ++ newline :: v).length = bytesToRead n := by
        simp only [List.length_append, List.length_cons, hx]
        omega
      have hstart : n - BUFSIZ * (v.length / BUFSIZ + 1) = p.length := by
        have hdiv : v.length / BUFSIZ = 0 := Nat.div_eq_of_lt (by omega)
        rw [hdiv]
        omega
      rw [hstart, hfile, hlen]
      rw [hlen] at hy hpos
      rw [scan_block p _ z hy (by omega) (by omega)]
      rcases List.append_eq_append_iff.1 hpx with ⟨as, rfl, rfl⟩ | ⟨bs, rfl, rfl⟩
      · -- it begins inside the line
        have hnx : newline ∉ x := fun h => hw (List.mem_append_right _ h)
        rw [scanBlock_last v hnx]
        simp only
        rw [scan_done _ (by simp), List.length_append]
        omega
      · rcases List.eq_nil_or_concat bs with rfl | ⟨bs', b, rfl⟩
        · -- it begins with the line
          simp only [List.nil_append, List.append_nil]
          rw [scanBlock_last v hw]
          simp only
          rw [scan_done _ (by simp)]
          omega
        · -- the line's beginning is in the block
          obtain rfl : b = newline := hu b (by simp)
          have hassoc : bs'.concat newline ++ w ++ newline :: v = bs' ++ newline :: (w ++ newline :: v) := by simp
          rw [hassoc, scanBlock_next bs' v hw]
          simp only [List.length_append, List.concat_eq_append, List.length_singleton]
          omega

theorem tail_few {file : List Byte} {n : ℕ} (h : file.count newline < n) : tail file n = file := by
  have hscan := scan_few file [] (c := n) (by omega)
  rw [List.append_nil] at hscan
  calc tail file n = file.drop (scan file file.length n) := copy_eq_drop _ _
    _ = file := by rw [hscan, List.drop_zero]

theorem tail_line {file u w v : List Byte} {n : ℕ} (hfile : file = u ++ (w ++ newline :: v))
    (hu : Terminated newline u) (hw : newline ∉ w) (hv : v.count newline + 1 = n) :
    tail file n = file.drop (max u.length (file.length - BUFSIZ * (v.length / BUFSIZ + 1))) := by
  have hscan := scan_line v [] hu hw
  rw [List.append_nil, List.append_assoc, ← hfile] at hscan
  calc tail file n = file.drop (scan file file.length n) := copy_eq_drop _ _
    _ = file.drop (scan file file.length (v.count newline + 1)) := by rw [← hv, Nat.cast_add, Nat.cast_one]
    _ = file.drop (max u.length (file.length - BUFSIZ * (v.length / BUFSIZ + 1))) := by rw [hscan]

/-- no more newlines are written than lines are asked for -/
theorem count_tail_le (file : List Byte) (n : ℕ) : (tail file n).count newline ≤ n := by
  by_cases hfew : file.count newline < n
  · rw [tail_few hfew]
    exact hfew.le
  · rcases Nat.eq_zero_or_pos n with rfl | hn
    · have hnone : tail file (0 : ℕ) = [] := by rw [tail, scan_done _ (by simp), copy_eq_drop, List.drop_length]
      rw [hnone, List.count_nil]
    · obtain ⟨u, w, v, hl, hu, hw, hv⟩ := exists_nth_last hn (Nat.not_lt.1 hfew)
      have hsuffix : tail file n <:+ w ++ newline :: v := by
        have hdrop : file.drop u.length = w ++ newline :: v := by rw [hl, List.drop_left]
        rw [tail_line hl hu hw hv, ← hdrop]
        refine List.suffix_of_suffix_length_le (List.drop_suffix _ _) (List.drop_suffix _ _) ?_
        rw [List.length_drop, List.length_drop]
        omega
      calc (tail file n).count newline ≤ (w ++ newline :: v).count newline := hsuffix.sublist.count_le newline
        _ = n := by simp [List.count_eq_zero.2 hw, hv]

/-! ## Text files -/

/-- the `n`-th line from the end, if there is one, lies within one block; the blocks are counted from the end -/
def SameBlock (file : List Byte) (n : ℕ) : Prop :=
  ∀ pre line post, lines newline file = pre ++ line :: post → post.length + 1 = n →
    (post.flatten.length + line.length - 1) / BUFSIZ = post.flatten.length / BUFSIZ

theorem sameBlock_of_few {file : List Byte} {n : ℕ} (hfile : Terminated newline file) (h : file.count newline < n) :
    SameBlock file n := by
  intro pre line post hl hn
  have hlen := length_lines hfile
  rw [hl, List.length_append, List.length_cons] at hlen
  omega

theorem sameBlock_iff {file u w v : List Byte} {n : ℕ} (hfile : file = u ++ (w ++ newline :: v))
    (ht : Terminated newline file) (hu : Terminated newline u) (hw : newline ∉ w) (hv : v.count newline + 1 = n) :
    SameBlock file n ↔ file.length - BUFSIZ * (v.length / BUFSIZ + 1) ≤ u.length := by
  have hvt : Terminated newline v := terminated_of_append (w := u ++ w) (by rw [List.append_assoc, ← hfile]; exact ht)
  have hlines : lines newline file = lines newline u ++ (w ++ [newline]) :: lines newline v := by
    rw [hfile, lines_append hu, lines_line hw]
  have hlen : file.length = u.length + w.length + 1 + v.length := by
    rw [hfile]
    simp
    omega
  have hle : v.length / BUFSIZ ≤ (v.length + w.length) / BUFSIZ := Nat.div_le_div_right (Nat.le_add_right _ _)
  have hlt := Nat.div_lt_iff_lt_mul (x := v.length + w.length) (y := v.length / BUFSIZ + 1) (k := BUFSIZ) (by decide)
  rw [Nat.mul_comm] at hlt
  have harith : (v.length + w.length) / BUFSIZ = v.length / BUFSIZ ↔
      file.length - BUFSIZ * (v.length / BUFSIZ + 1) ≤ u.length := by
    constructor
    · intro h
      have := hlt.1 (by omega)
      omega
    · intro h
      have := hlt.2 (by omega)
      omega
  rw [← harith]
  constructor
  · intro h
    have hblock := h _ _ _ hlines (by rw [length_lines hvt, hv])
    rwa [lines_flatten, List.length_append, List.length_singleton, ← Nat.add_assoc, Nat.add_sub_cancel] at hblock
  · intro h pre line post hl hn
    have hsame := hlines.symm.trans hl
    obtain ⟨-, hrest⟩ := List.append_inj' hsame (by rw [List.length_cons, List.length_cons, length_lines hvt]; omega)
    obtain ⟨rfl, rfl⟩ := List.cons_eq_cons.1 hrest
    rw [lines_flatten, List.length_append, List.length_singleton, ← Nat.add_assoc, Nat.add_sub_cancel]
    exact h

/-- a file of one block -/
theorem sameBlock_of_short {file : List Byte} (ht : Terminated newline file) (h : file.length ≤ BUFSIZ) (n : ℕ) :
    SameBlock file n := by
  by_cases hfew : file.count newline < n
  · exact sameBlock_of_few ht hfew
  · rcases Nat.eq_zero_or_pos n with rfl | hn
    · exact fun _ _ _ _ hzero => absurd hzero (Nat.succ_ne_zero _)
    · obtain ⟨u, w, v, hl, hu, hw, hv⟩ := exists_nth_last hn (Nat.not_lt.1 hfew)
      refine (sameBlock_iff hl ht hu hw hv).2 ?_
      have hblock : BUFSIZ ≤ BUFSIZ * (v.length / BUFSIZ + 1) := Nat.le_mul_of_pos_right _ (Nat.succ_pos _)
      omega

theorem drop_eq_drop_iff {l : List Byte} {i j : ℕ} (hi : i ≤ l.length) (hj : j ≤ l.length) :
    l.drop i = l.drop j ↔ i = j := by
  refine ⟨fun h => ?_, fun h => by rw [h]⟩
  have hlen := congrArg List.length h
  rw [List.length_drop, List.length_drop] at hlen
  omega

/-- for a text file the output is the last `n` lines exactly when the first of them does not go over a block boundary -/
theorem tail_iff {file : List Byte} (hfile : Terminated newline file) (n : ℕ) :
    tail file n = lastLines newline n file ↔ SameBlock file n := by
  by_cases hfew : file.count newline < n
  · have hall := lastLines_all (e := newline) (l := file) (n := n) (by rw [length_lines hfile]; exact hfew.le)
    simp [tail_few hfew, hall, sameBlock_of_few hfile hfew]
  · rcases Nat.eq_zero_or_pos n with rfl | hn
    · have hnone : tail file 0 = lastLines newline 0 file := by
        rw [tail, scan_done _ (by simp), copy_eq_drop]
        simp [lastLines]
      have hsame : SameBlock file 0 := fun _ _ _ _ h => absurd h (Nat.succ_ne_zero _)
      simpa [hsame] using hnone
    · obtain ⟨u, w, v, hl, hu, hw, hv⟩ := exists_nth_last hn (Nat.not_lt.1 hfew)
      have hlen : u.length ≤ file.length := by
        rw [hl]
        simp
      rw [tail_line hl hu hw hv, lastLines_eq_drop hl hfile hu hw hv, sameBlock_iff hl hfile hu hw hv,
        drop_eq_drop_iff (by omega) hlen]
      exact max_eq_left_iff

/-! ## A last line without a newline -/

theorem eq_nil_of_terminated {l : List Byte} (h : Terminated newline l) (h0 : l.count newline = 0) : l = [] := by
  by_contra hl
  obtain ⟨l', rfl⟩ := h.eq_concat hl
  simp at h0

/-- a file and the file with one more newline lead to the same output, up to that newline, exactly when fewer newlines
are in the file than lines are asked for and, if all lines are asked for, the first one does not go over a block
boundary -/
theorem final_iff (file : List Byte) {n : ℕ} (hn : 1 ≤ n) :
    tail file n ++ [newline] = tail (file ++ [newline]) n ↔
      file.count newline < n ∧ SameBlock (file ++ [newline]) n := by
  have ht : Terminated newline (file ++ [newline]) := terminated_concat _ _
  have hcount : (file ++ [newline]).count newline = file.count newline + 1 := by simp
  by_cases hfew : file.count newline < n
  · rw [tail_few hfew]
    by_cases hfew' : (file ++ [newline]).count newline < n
    · simp [tail_few hfew', hfew, sameBlock_of_few ht hfew']
    · -- all lines are asked for: the first one begins the output
      obtain ⟨u, w, v, hl, hu, hw, hv⟩ := exists_nth_last hn (Nat.not_lt.1 hfew')
      have hnil : u = [] := by
        refine eq_nil_of_terminated hu ?_
        have htotal := congrArg (List.count newline) hl
        simp only [List.count_append, List.count_cons_self] at htotal
        simp at htotal
        omega
      subst hnil
      rw [tail_line hl hu hw hv, sameBlock_iff hl ht hu hw hv]
      have hdrop := drop_eq_drop_iff (l := file ++ [newline]) (i := 0)
        (j := max 0 ((file ++ [newline]).length - BUFSIZ * (v.length / BUFSIZ + 1))) (by omega) (by omega)
      rw [List.drop_zero] at hdrop
      simp only [List.length_nil] at *
      rw [hdrop]
      omega
  · obtain ⟨u, w, v, hl, hu, hw, hv⟩ := exists_nth_last hn (Nat.not_lt.1 hfew)
    -- in the terminated file the line after it is the first one asked for
    obtain ⟨u', w', v', hl', hu', hw', hv'⟩ :=
      exists_nth_last (e := newline) (l := v ++ [newline]) hn (by simp [List.count_append]; omega)
    have hnil : u' = [] := by
      refine eq_nil_of_terminated hu' ?_
      have htotal := congrArg (List.count newline) hl'
      simp only [List.count_append, List.count_cons_self, List.count_nil] at htotal
      omega
    subst hnil
    have hnext : file ++ [newline] = (u ++ w ++ [newline]) ++ (w' ++ newline :: v') := by
      rw [List.nil_append] at hl'
      rw [← hl', hl]
      simp
    rw [tail_line hl hu hw hv, tail_line hnext (terminated_concat _ _) hw' hv']
    have hlen : file.length = u.length + w.length + 1 + v.length := by
      rw [hl]
      simp
      omega
    have hblock : v.length < BUFSIZ * (v.length / BUFSIZ + 1) := Nat.lt_mul_div_succ _ (by decide)
    refine ⟨fun h => ?_, fun h => absurd h.1 hfew⟩
    have hlong := congrArg List.length h
    simp only [List.length_append, List.length_drop, List.length_singleton] at hlong
    omega

end OsPractice.Tail
