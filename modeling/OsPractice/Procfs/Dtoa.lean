/-
`dtoa` (`procfs/userfsact.c`): the decimal numeral of a `long long`. The digits go into a static buffer, the least
significant first, and are turned round in place.

Negation wraps around. Assignments outside the buffer make the call `none`. Division and remainder are those of C: the
remainder of a negative number is negative.

Results:
- `digits_spec`, `reverse_spec`: the two loops;
- `dtoa_eq`: the text in the buffer;
- `dtoa_exact`: the numbers for which it is the numeral.
-/
import OsPractice.Core.Decimal
import Mathlib.Data.List.Induction

namespace OsPractice.Dtoa

open Bytes Decimal

/-! ## The program -/

/-- `static char buf[100]` -/
abbrev Buf := Vector Byte 100

/-- `buf[i] = c` -/
def put (buf : Buf) (i : ℕ) (c : Byte) : Option Buf := if h : i < 100 then some (buf.set i c) else none

/-- `(n % 10) + '0'` as a `char` -/
def lastChar (n : BitVec 64) : Byte := (n.srem 10 + 48).setWidth 8

/-- the loop over the digits: the buffer and `bufp` -/
def digits (n : BitVec 64) (buf : Buf) (bufp : ℕ) : Option (Buf × ℕ) :=
  if n = 0 then some (buf, bufp)
  else if h : bufp < 100 then digits (n.sdiv 10) (buf.set bufp (lastChar n)) (bufp + 1)
  else none
termination_by 100 - bufp

/-- the loop that turns the characters from `l` to `r` round -/
def reverse (buf : Buf) (l r : ℕ) : Option Buf :=
  if hlr : l < r then
    if h : r < 100 then
      let tmp := buf[l]
      reverse ((buf.set l buf[r]).set r tmp) (l + 1) (r - 1)
    else none
  else some buf
termination_by r - l

/-- the buffer after the call; what is returned points to its beginning -/
def dtoa (buf : Buf) (n : BitVec 64) : Option Buf :=
  let sign := n.slt 0
  let written : Option (Buf × ℕ) :=
    if n = 0 then (put buf 0 48).map fun buf => (buf, 1)
    else if sign then (put buf 0 45).bind fun buf => digits (-n) buf 1
    else digits n buf 0
  written.bind fun (buf, bufp) =>
    (reverse buf (if sign then 1 else 0) (bufp - 1)).bind fun buf => put buf bufp 0

/-- the text that is returned -/
def text (buf : Buf) : List Byte := cstring buf.toList

/-! ## The loop over the digits -/

/-- the character for the digit `d` of a number; of a negative one it lies below `'0'` -/
def charOf (neg : Bool) (d : ℕ) : Byte := if neg then BitVec.ofNat 8 (48 - d) else digitChar d

theorem lastChar_eq {n : BitVec 64} {neg : Bool} (h : if neg then n.toInt ≤ 0 else 0 ≤ n.toInt) :
    lastChar n = charOf neg (n.toInt.natAbs % 10) := by
  have hrem : (n.srem 10).toInt = n.toInt.tmod 10 := BitVec.toInt_srem n 10
  have hof : n.srem 10 = BitVec.ofInt 64 (n.toInt.tmod 10) := by rw [← hrem, BitVec.ofInt_toInt]
  have habs : (n.toInt.tmod 10).natAbs = n.toInt.natAbs % 10 := Int.natAbs_tmod _ _
  have hlt : n.toInt.natAbs % 10 < 10 := Nat.mod_lt _ (by norm_num)
  rw [lastChar, hof]
  generalize n.toInt.natAbs % 10 = d at habs hlt
  cases neg with
  | true =>
    have hk : n.toInt.tmod 10 = - d := by
      have hneg : 0 ≤ (- n.toInt).tmod 10 := Int.tmod_nonneg 10 (Int.neg_nonneg.2 h)
      rw [Int.neg_tmod] at hneg
      omega
    rw [hk]
    interval_cases d <;> rfl
  | false =>
    have hk : n.toInt.tmod 10 = d := by
      have := Int.tmod_nonneg 10 h
      omega
    rw [hk]
    interval_cases d <;> rfl

theorem sdiv_sign {n : BitVec 64} {neg : Bool} (h : if neg then n.toInt ≤ 0 else 0 ≤ n.toInt) :
    (if neg then (n.sdiv 10).toInt ≤ 0 else 0 ≤ (n.sdiv 10).toInt) ∧
      (n.sdiv 10).toInt.natAbs = n.toInt.natAbs / 10 := by
  have hdiv : (n.sdiv 10).toInt = n.toInt.tdiv 10 := BitVec.toInt_sdiv_of_ne_or_ne n 10 (.inr (by decide))
  rw [hdiv]
  refine ⟨?_, Int.natAbs_tdiv _ _⟩
  cases neg with
  | true =>
    have hneg : 0 ≤ (- n.toInt).tdiv 10 := Int.tdiv_nonneg (Int.neg_nonneg.2 h) (by norm_num)
    rw [Int.neg_tdiv] at hneg
    exact Int.neg_nonneg.1 hneg
  | false => exact Int.tdiv_nonneg h (by norm_num)

theorem digits_spec {n : BitVec 64} (buf : Buf) (bufp : ℕ) {neg : Bool}
    (h : if neg then n.toInt ≤ 0 else 0 ≤ n.toInt)
    (hroom : bufp + (Nat.digits 10 n.toInt.natAbs).length ≤ 100) :
    ∃ buf', digits n buf bufp = some (buf', bufp + (Nat.digits 10 n.toInt.natAbs).length) ∧
      buf'.toList.take (bufp + (Nat.digits 10 n.toInt.natAbs).length) =
        buf.toList.take bufp ++ (Nat.digits 10 n.toInt.natAbs).map (charOf neg) := by
  fun_induction digits n buf bufp with
  | case1 buf bufp => exact ⟨buf, by simp⟩
  | case2 n buf bufp hn hb ih =>
    obtain ⟨hsign, habs⟩ := sdiv_sign h
    have hpos : n.toInt.natAbs ≠ 0 := by
      rw [Int.natAbs_ne_zero]
      exact fun hz => hn (BitVec.eq_of_toInt_eq hz)
    have hds : Nat.digits 10 n.toInt.natAbs = n.toInt.natAbs % 10 :: Nat.digits 10 (n.sdiv 10).toInt.natAbs := by
      rw [habs, Nat.digits_def' (by norm_num) (Nat.pos_of_ne_zero hpos)]
    rw [hds, List.length_cons] at hroom
    obtain ⟨buf', hrun, htake⟩ := ih hsign (by omega)
    refine ⟨buf', ?_, ?_⟩
    · rw [hrun, hds, List.length_cons, Nat.add_right_comm, Nat.add_assoc]
    · rw [hds, List.length_cons, List.map_cons, ← lastChar_eq h, Nat.add_comm _ 1, ← Nat.add_assoc, htake, take_set,
        List.append_assoc, List.singleton_append]
  | case3 n buf bufp hn hb =>
    have hds : Nat.digits 10 n.toInt.natAbs = [] := List.length_eq_zero_iff.1 (by omega)
    rw [Nat.digits_eq_nil_iff_eq_zero, Int.natAbs_eq_zero] at hds
    exact absurd (BitVec.eq_of_toInt_eq hds) hn

/-! ## The loop that turns the characters round -/

theorem set_length (u v : List Byte) (x y : Byte) : (u ++ x :: v).set u.length y = u ++ y :: v := by
  simp

theorem getElem_of_toList {buf : Buf} {u v : List Byte} {x : Byte} {i : ℕ} {h : i < 100}
    (hbuf : buf.toList = u ++ x :: v) (hi : i = u.length) : buf[i] = x := by
  subst hi
  simp [← Vector.getElem_toList, hbuf]

theorem reverse_spec {buf : Buf} {pre mid post : List Byte} {l r : ℕ} (hbuf : buf.toList = pre ++ mid ++ post)
    (hl : l = pre.length) (hr : r + 1 = l + mid.length) :
    ∃ buf', reverse buf l r = some buf' ∧ buf'.toList = pre ++ mid.reverse ++ post := by
  induction mid using List.bidirectionalRec generalizing buf pre post l r with
  | nil =>
    rw [reverse, dif_neg (by simp at hr; omega)]
    exact ⟨buf, rfl, hbuf⟩
  | singleton a =>
    rw [reverse, dif_neg (by simp at hr; omega)]
    exact ⟨buf, rfl, hbuf⟩
  | cons_append a mid b ih =>
    have hlen := congrArg List.length hbuf
    simp only [Vector.length_toList, List.length_append, List.length_cons, List.length_nil] at hlen hr
    have hlr : l < r := by omega
    have hr' : r < 100 := by omega
    rw [reverse, dif_pos hlr, dif_pos hr']
    have hswap : ((buf.set l buf[r]).set r buf[l]).toList = (pre ++ [b]) ++ mid ++ (a :: post) := by
      have hfront : buf.toList = pre ++ a :: (mid ++ b :: post) := by simpa using hbuf
      have hback : buf.toList = (pre ++ a :: mid) ++ b :: post := by simpa using hbuf
      have hr₂ : r = (pre ++ b :: mid).length := by simp; omega
      rw [getElem_of_toList hfront hl, getElem_of_toList hback (by simp; omega), Vector.toList_set, Vector.toList_set,
        hfront]
      calc ((pre ++ a :: (mid ++ b :: post)).set l b).set r a
          = (pre ++ b :: (mid ++ b :: post)).set r a := by rw [hl, set_length]
        _ = ((pre ++ b :: mid) ++ b :: post).set r a := by simp
        _ = (pre ++ b :: mid) ++ a :: post := by rw [hr₂, set_length]
        _ = (pre ++ [b]) ++ mid ++ (a :: post) := by simp
    obtain ⟨buf', hrun, hbuf'⟩ := ih hswap (l := l + 1) (r := r - 1) (by simp; omega) (by omega)
    exact ⟨buf', hrun, by rw [hbuf']; simp⟩

/-! ## The call -/

/-- the end of the call: the characters behind `pre` are turned round, and the text ends behind them -/
theorem finish {buf : Buf} {pre mid : List Byte} {l bufp : ℕ} (htake : buf.toList.take bufp = pre ++ mid)
    (hl : l = pre.length) (hp : bufp = l + mid.length) (hmid : mid ≠ []) (hb : bufp < 100) (hnul : 0 ∉ pre ++ mid) :
    ∃ buf', ((reverse buf l (bufp - 1)).bind fun buf => put buf bufp 0) = some buf' ∧
      text buf' = pre ++ mid.reverse := by
  have hbuf : buf.toList = pre ++ mid ++ buf.toList.drop bufp := by rw [← htake, List.take_append_drop]
  have hpos := List.length_pos_of_ne_nil hmid
  obtain ⟨buf', hrun, hbuf'⟩ := reverse_spec (l := l) (r := bufp - 1) hbuf hl (by omega)
  have htext : buf'.toList.take bufp = pre ++ mid.reverse := by
    rw [hbuf']
    exact List.take_left' (by rw [List.length_append, List.length_reverse]; omega)
  refine ⟨buf'.set bufp 0, by rw [hrun, Option.bind_some, put, dif_pos hb], ?_⟩
  rw [text, Vector.toList_set, cstring_set (by simpa using hb), htext]
  rw [htext]
  simpa using hnul

theorem charOf_ne_zero {neg : Bool} {d : ℕ} (h : d < 10) : charOf neg d ≠ 0 := by
  cases neg <;> interval_cases d <;> decide

theorem length_digits_le (n : BitVec 64) : (Nat.digits 10 n.toInt.natAbs).length ≤ 19 := by
  have h1 := n.toInt_lt
  have h2 := n.le_toInt
  rw [Nat.digits_length_le_iff (by norm_num)]
  omega

/-- `LLONG_MIN` -/
def LLONG_MIN : BitVec 64 := BitVec.intMin 64

/-- what the negation of a negative number is -/
theorem neg_sign {n : BitVec 64} (h : n.toInt < 0) :
    (if n == LLONG_MIN then (-n).toInt ≤ 0 else 0 ≤ (-n).toInt) ∧ (-n).toInt.natAbs = n.toInt.natAbs := by
  by_cases hn : n = LLONG_MIN
  · have hneg : -n = n := by rw [hn, LLONG_MIN, BitVec.neg_intMin]
    rw [hneg, if_pos (by simpa using hn)]
    exact ⟨h.le, rfl⟩
  · rw [BitVec.toInt_neg_of_ne_intMin hn, if_neg (by simpa using hn)]
    exact ⟨by omega, Int.natAbs_neg _⟩

theorem digits_mem_lt (n : BitVec 64) : ∀ d ∈ Nat.digits 10 n.toInt.natAbs, d < 10 :=
  fun _ hd => Nat.digits_lt_base (by norm_num) hd

/-- no character of the digits is a NUL -/
theorem nul_notMem (n : BitVec 64) (neg : Bool) : 0 ∉ (Nat.digits 10 n.toInt.natAbs).map (charOf neg) := by
  intro h
  obtain ⟨d, hd, hz⟩ := List.mem_map.1 h
  exact charOf_ne_zero (digits_mem_lt n d hd) hz

/-- the text that is returned: at `LLONG_MIN` the characters lie below `'0'` -/
theorem dtoa_eq (buf : Buf) (n : BitVec 64) :
    ∃ buf', dtoa buf n = some buf' ∧ text buf' =
      if n = 0 then [48]
      else (if n.toInt < 0 then [45] else []) ++
        ((Nat.digits 10 n.toInt.natAbs).map (charOf (n == LLONG_MIN))).reverse := by
  have hslt : n.slt 0 = decide (n.toInt < 0) := rfl
  have hlen := length_digits_le n
  by_cases hn : n = 0
  · subst hn
    have htake : (buf.set 0 48).toList.take 1 = [] ++ [48] := take_set buf 48 (by decide)
    exact finish htake rfl rfl (by simp) (by decide) (by decide)
  · have hds : (Nat.digits 10 n.toInt.natAbs).map (charOf (n == LLONG_MIN)) ≠ [] := by
      rw [Ne, List.map_eq_nil_iff, Nat.digits_eq_nil_iff_eq_zero, Int.natAbs_eq_zero]
      exact fun hz => hn (BitVec.eq_of_toInt_eq hz)
    by_cases hneg : n.toInt < 0
    · obtain ⟨hsign, habs⟩ := neg_sign hneg
      obtain ⟨buf', hrun, htake⟩ := digits_spec (buf.set 0 45) 1 hsign (by rw [habs]; omega)
      rw [habs] at hrun htake
      rw [take_set buf 45 (by decide), List.take_zero, List.nil_append] at htake
      have hfinish := finish (l := 1) htake rfl (by rw [List.length_map]) hds (by omega) (by
        rw [List.singleton_append, List.mem_cons]
        exact not_or.2 ⟨by decide, nul_notMem n _⟩)
      simpa only [dtoa, if_neg hn, hslt, hneg, decide_true, if_true, put, dif_pos (show 0 < 100 by decide),
        Option.bind_some, hrun] using hfinish
    · have hmin : (n == LLONG_MIN) = false := by
        rw [beq_eq_false_iff_ne]
        rintro rfl
        exact hneg (by decide)
      rw [hmin] at hds ⊢
      have hsign : if false = true then n.toInt ≤ 0 else 0 ≤ n.toInt := Int.not_lt.1 hneg
      obtain ⟨buf', hrun, htake⟩ := digits_spec buf 0 hsign (by omega)
      rw [Nat.zero_add] at hrun htake
      rw [List.take_zero] at htake
      have hfinish := finish (l := 0) htake rfl (by rw [List.length_map, Nat.zero_add]) hds (by omega) (nul_notMem n _)
      simpa only [dtoa, if_neg hn, hslt, hneg, decide_false, Bool.false_eq_true, if_false, Option.bind_some, hrun]
        using hfinish

theorem dtoa_numeral {buf buf' : Buf} {n : BitVec 64} (hn : n ≠ LLONG_MIN) (h : dtoa buf n = some buf') :
    text buf' = (if n.toInt < 0 then [45] else []) ++ numeral n.toInt.natAbs := by
  obtain ⟨buf₁, hrun, htext⟩ := dtoa_eq buf n
  obtain rfl : buf₁ = buf' := Option.some.inj (hrun.symm.trans h)
  rw [htext, beq_false_of_ne hn, numeral]
  by_cases hzero : n = 0
  · subst hzero
    rfl
  · have habs : n.toInt.natAbs ≠ 0 := by
      rw [Int.natAbs_ne_zero]
      exact fun hz => hzero (BitVec.eq_of_toInt_eq hz)
    rw [if_neg hzero, if_neg habs, List.map_reverse]
    rfl

/-- at `LLONG_MIN` the last character is a `(` -/
theorem dtoa_min {buf buf' : Buf} (h : dtoa buf LLONG_MIN = some buf') : ¬ IsNumeral LLONG_MIN.toInt (text buf') := by
  obtain ⟨buf₁, hrun, htext⟩ := dtoa_eq buf LLONG_MIN
  obtain rfl : buf₁ = buf' := Option.some.inj (hrun.symm.trans h)
  rw [if_neg (by decide), if_pos (by decide), beq_self_eq_true, List.singleton_append] at htext
  rintro ⟨hcanonical, -⟩
  rw [htext] at hcanonical
  have height : 8 ∈ Nat.digits 10 LLONG_MIN.toInt.natAbs := by
    have habs : LLONG_MIN.toInt.natAbs = 9223372036854775808 := by decide
    rw [habs]
    norm_num
  have hdigit := hcanonical.1.digits (charOf true 8) (List.mem_reverse.2 (List.mem_map_of_mem height))
  exact absurd hdigit (by decide)

/-- **The numeral.** For every number of 64 bits and whatever the buffer has in it: no assignment goes outside the
buffer, and the text is the decimal numeral of the number, which reads back as the number, if and only if the number is
not `LLONG_MIN`. -/
theorem dtoa_exact (buf : Buf) (n : BitVec 64) :
    ∃ buf', dtoa buf n = some buf' ∧ (IsNumeral n.toInt (text buf') ↔ n ≠ LLONG_MIN) := by
  obtain ⟨buf', hrun, -⟩ := dtoa_eq buf n
  refine ⟨buf', hrun, ?_, fun hn => ?_⟩
  · rintro hnum rfl
    exact dtoa_min hrun hnum
  · rw [dtoa_numeral hn hrun]
    by_cases hneg : n.toInt < 0
    · have hz : n.toInt = - (n.toInt.natAbs : ℤ) := by omega
      rw [if_pos hneg, List.singleton_append]
      conv_lhs => rw [hz]
      exact isNumeral_neg (by omega)
    · have hz : n.toInt = (n.toInt.natAbs : ℤ) := by omega
      rw [if_neg hneg, List.nil_append]
      conv_lhs => rw [hz]
      exact isNumeral_numeral _

theorem not_dtoa_exact :
    ¬ ∀ (buf : Buf) (n : BitVec 64), ∃ buf', dtoa buf n = some buf' ∧ IsNumeral n.toInt (text buf') := by
  intro h
  obtain ⟨buf', hrun, hnum⟩ := h (Vector.replicate 100 0) LLONG_MIN
  exact dtoa_min hrun hnum

end OsPractice.Dtoa
