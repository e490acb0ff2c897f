/-
Decimal numerals as bytes. Library: nothing here names a program.

The numeral of a number has its digits, the first one first, and no zero before them. `strtoll` with base 10 skips white
space, takes a sign and then digits; it gives the text behind them, or the whole text when there is no digit. A value
that 64 bits cannot hold gives the closest one they can.

Results: `value_numeral`, `numeral_canonical`: a numeral reads back and is canonical; `strtoll_end`: the texts that
`strtoll` reads to their end; `Denotes.strtoll`: what it makes of them.
-/
import OsPractice.Core.Bytes
import Mathlib.Data.List.TakeWhile

namespace OsPractice.Decimal

open Bytes

/-! ## Digits -/

def isDigit (c : Byte) : Bool := 48 ≤ c.toNat && c.toNat ≤ 57

def digitChar (d : ℕ) : Byte := BitVec.ofNat 8 (48 + d)

/-- the number that digits denote -/
def value (s : List Byte) : ℕ := s.foldl (fun n c => 10 * n + (c.toNat - 48)) 0

/-- digits, and no zero before others -/
structure Canonical (s : List Byte) : Prop where
  ne_nil : s ≠ []
  digits : ∀ c ∈ s, isDigit c = true
  leading : s.head? = some 48 → s = [48]

def numeral (n : ℕ) : List Byte := if n = 0 then [48] else (Nat.digits 10 n).reverse.map digitChar

theorem digitChar_toNat {d : ℕ} (h : d < 10) : (digitChar d).toNat = 48 + d := by
  rw [digitChar, BitVec.toNat_ofNat, Nat.mod_eq_of_lt (by omega)]

theorem isDigit_digitChar {d : ℕ} (h : d < 10) : isDigit (digitChar d) = true := by
  rw [isDigit, digitChar_toNat h]
  simp
  omega

theorem value_concat (s : List Byte) (c : Byte) : value (s ++ [c]) = 10 * value s + (c.toNat - 48) := by
  rw [value, List.foldl_concat, value]

/-- digits that are written with the least significant one last -/
theorem value_reverse {ds : List ℕ} (h : ∀ d ∈ ds, d < 10) :
    value (ds.reverse.map digitChar) = Nat.ofDigits 10 ds := by
  induction ds with
  | nil => rfl
  | cons d ds ih =>
    rw [List.reverse_cons, List.map_append, List.map_singleton, value_concat, Nat.ofDigits_cons,
      ih fun e he => h e (List.mem_cons_of_mem _ he), digitChar_toNat (h d List.mem_cons_self)]
    omega

theorem value_numeral (n : ℕ) : value (numeral n) = n := by
  rw [numeral]
  split_ifs with hn
  · rw [hn]
    rfl
  · rw [value_reverse fun d hd => Nat.digits_lt_base (by norm_num) hd, Nat.ofDigits_digits]

theorem numeral_canonical (n : ℕ) : Canonical (numeral n) := by
  rw [numeral]
  split_ifs with hn
  · exact ⟨by simp, by decide, fun _ => rfl⟩
  · have hds : Nat.digits 10 n ≠ [] := Nat.digits_ne_nil_iff_ne_zero.2 hn
    refine ⟨by simpa using hds, ?_, fun hhead => ?_⟩
    · intro c hc
      obtain ⟨d, hd, rfl⟩ := List.mem_map.1 hc
      exact isDigit_digitChar (Nat.digits_lt_base (by norm_num) (List.mem_reverse.1 hd))
    · -- the first digit is the most significant one
      have hlast := Nat.getLast_digit_ne_zero 10 hn
      rw [List.head?_map, List.head?_reverse, List.getLast?_eq_some_getLast hds, Option.map_some,
        Option.some_inj] at hhead
      have hzero := congrArg BitVec.toNat hhead
      rw [digitChar_toNat (Nat.digits_lt_base (by norm_num) (List.getLast_mem hds))] at hzero
      change 48 + _ = 48 at hzero
      omega

theorem numeral_length {n k : ℕ} (hk : 0 < k) (h : n < 10 ^ k) : (numeral n).length ≤ k := by
  rw [numeral]
  split_ifs
  · exact hk
  · rw [List.length_map, List.length_reverse, Nat.digits_length_le_iff (by norm_num)]
    exact h

/-! ## Signs -/

/-- a canonical numeral with an optional `-`, and `0` without one -/
def CanonicalInt : List Byte → Prop
  | 45 :: s => Canonical s ∧ s ≠ [48]
  | s => Canonical s

/-- the number that an optional `-` and digits denote -/
def valueInt : List Byte → ℤ
  | 45 :: s => - value s
  | s => value s

/-- `s` is the canonical numeral of `z` -/
def IsNumeral (z : ℤ) (s : List Byte) : Prop := CanonicalInt s ∧ valueInt s = z

theorem isNumeral_numeral (n : ℕ) : IsNumeral n (numeral n) := by
  have hcanonical := numeral_canonical n
  have hvalue := value_numeral n
  generalize numeral n = s at hcanonical hvalue
  unfold IsNumeral CanonicalInt valueInt
  split
  · -- a numeral does not begin with a `-`
    exact absurd (hcanonical.digits 45 List.mem_cons_self) (by decide)
  · exact ⟨hcanonical, congrArg _ hvalue⟩

theorem isNumeral_neg {n : ℕ} (hn : n ≠ 0) : IsNumeral (- n) (45 :: numeral n) := by
  refine ⟨⟨numeral_canonical n, fun hzero => hn ?_⟩, congrArg (fun m : ℕ => - (m : ℤ)) (value_numeral n)⟩
  rw [← value_numeral n, hzero]
  rfl

/-! ## Reading -/

/-- `isspace` in the C locale -/
def isSpace (c : Byte) : Bool := c = 32 || (9 ≤ c.toNat && c.toNat ≤ 13)

/-- whether there is a `-`, and the text behind the sign -/
def sign : List Byte → Bool × List Byte
  | 45 :: s => (true, s)
  | 43 :: s => (false, s)
  | s => (false, s)

/-- the closest value of 64 bits -/
def clamp (z : ℤ) : ℤ := max (- 2 ^ 63) (min z (2 ^ 63 - 1))

/-- `strtoll(s, &endp, 10)`: the value and the text at `endp` -/
def strtoll (s : List Byte) : ℤ × List Byte :=
  let (neg, t) := sign (s.dropWhile isSpace)
  let ds := t.takeWhile isDigit
  if ds = [] then (0, s) else (clamp (if neg then - value ds else value ds), t.dropWhile isDigit)

/-- the number at the beginning of a text, without a bound -/
def number (s : List Byte) : ℤ :=
  let (neg, t) := sign (s.dropWhile isSpace)
  if neg then - value (t.takeWhile isDigit) else value (t.takeWhile isDigit)

/-- whether `strtoll` sets `errno` to `ERANGE` -/
def erange (s : List Byte) : Bool := clamp (number s) ≠ number s

/-- `atoi`, with `strtol` that does the same as `strtoll` on 64 bits: the result is cut down to an `int`, and `errno` is
left alone where there is no digit -/
def atoi (s : List Byte) : BitVec 32 × Bool := (BitVec.ofInt 32 (strtoll s).1, erange s)

/-- blanks, an optional sign and at least one digit -/
def Numerical (s : List Byte) : Prop :=
  ∃ blanks sgn ds, s = blanks ++ (sgn ++ ds) ∧ (∀ c ∈ blanks, isSpace c = true) ∧
    (sgn = [] ∨ sgn = [43] ∨ sgn = [45]) ∧ ds ≠ [] ∧ ∀ c ∈ ds, isDigit c = true

/-- a text of this kind, and its number -/
def Denotes (s : List Byte) (z : ℤ) : Prop :=
  ∃ blanks sgn ds, s = blanks ++ (sgn ++ ds) ∧ (∀ c ∈ blanks, isSpace c = true) ∧
    (sgn = [] ∨ sgn = [43] ∨ sgn = [45]) ∧ ds ≠ [] ∧ (∀ c ∈ ds, isDigit c = true) ∧
    z = if sgn = [45] then - (value ds : ℤ) else value ds

theorem sign_split (s : List Byte) : ∃ sgn, s = sgn ++ (sign s).2 ∧ (sgn = [] ∨ sgn = [43] ∨ sgn = [45]) := by
  unfold sign
  split
  · exact ⟨[45], rfl, .inr (.inr rfl)⟩
  · exact ⟨[43], rfl, .inr (.inl rfl)⟩
  · exact ⟨[], rfl, .inl rfl⟩

theorem not_isSpace_of_isDigit {c : Byte} (h : isDigit c = true) : isSpace c = false := by
  revert c
  decide

theorem sign_append {sgn ds : List Byte} (hsgn : sgn = [] ∨ sgn = [43] ∨ sgn = [45])
    (hds : ∀ c ∈ ds, isDigit c = true) : sign (sgn ++ ds) = (decide (sgn = [45]), ds) := by
  rcases hsgn with rfl | rfl | rfl
  · cases ds with
    | nil => rfl
    | cons c ds =>
      have hc := hds c List.mem_cons_self
      rw [List.nil_append, sign]
      · rfl
      · rintro t ⟨⟩
        cases hc
      · rintro t ⟨⟩
        cases hc
  · rfl
  · rfl

/-- the sign and the digits of a number behind blanks -/
theorem sign_dropWhile {blanks sgn ds : List Byte} (hblanks : ∀ c ∈ blanks, isSpace c = true)
    (hsgn : sgn = [] ∨ sgn = [43] ∨ sgn = [45]) (hne : ds ≠ []) (hds : ∀ c ∈ ds, isDigit c = true) :
    sign ((blanks ++ (sgn ++ ds)).dropWhile isSpace) = (decide (sgn = [45]), ds) := by
  have hfirst : (sgn ++ ds).dropWhile isSpace = sgn ++ ds := by
    obtain ⟨c, ds, rfl⟩ := List.exists_cons_of_ne_nil hne
    rcases hsgn with rfl | rfl | rfl
    · have hc := not_isSpace_of_isDigit (hds c List.mem_cons_self)
      rw [List.nil_append, List.dropWhile_cons_of_neg (by simp [hc])]
    · rfl
    · rfl
  rw [List.dropWhile_append_of_pos hblanks, hfirst, sign_append hsgn hds]

/-- where `strtoll` stops -/
theorem strtoll_snd (s : List Byte) :
    (strtoll s).2 =
      if (sign (s.dropWhile isSpace)).2.takeWhile isDigit = [] then s
      else (sign (s.dropWhile isSpace)).2.dropWhile isDigit :=
  apply_ite Prod.snd ..

theorem strtoll_suffix (s : List Byte) : (strtoll s).2 <:+ s := by
  obtain ⟨sgn, hsplit, -⟩ := sign_split (s.dropWhile isSpace)
  rw [strtoll_snd]
  split_ifs
  · exact List.suffix_rfl
  · have hsign : (sign (s.dropWhile isSpace)).2 <:+ s.dropWhile isSpace := ⟨sgn, hsplit.symm⟩
    exact (List.dropWhile_suffix _).trans (hsign.trans (List.dropWhile_suffix _))

/-- the texts that `strtoll` reads to their end -/
theorem strtoll_end {s : List Byte} (hs : s ≠ []) : (strtoll s).2 = [] ↔ Numerical s := by
  rw [strtoll_snd]
  constructor
  · intro h
    obtain ⟨sgn, hsplit, hsgn⟩ := sign_split (s.dropWhile isSpace)
    split_ifs at h with hds
    · exact absurd h hs
    · refine ⟨s.takeWhile isSpace, sgn, (sign (s.dropWhile isSpace)).2, ?_, ?_, hsgn, ?_, ?_⟩
      · rw [← hsplit, List.takeWhile_append_dropWhile]
      · exact fun c hc => List.mem_takeWhile_imp hc
      · rintro hnil
        exact hds (by rw [hnil]; rfl)
      · exact List.dropWhile_eq_nil_iff.1 h
  · rintro ⟨blanks, sgn, ds, rfl, hblanks, hsgn, hne, hds⟩
    have hall : ds.takeWhile isDigit = ds := List.takeWhile_eq_self_iff.2 hds
    rw [sign_dropWhile hblanks hsgn hne hds, hall, if_neg hne]
    exact List.dropWhile_eq_nil_iff.2 hds

theorem clamp_eq_self {z : ℤ} (hlow : - 2 ^ 63 ≤ z) (hup : z < 2 ^ 63) : clamp z = z := by
  rw [clamp]
  omega

/-- what `strtoll` makes of a text that denotes a number -/
theorem Denotes.strtoll {s : List Byte} {z : ℤ} (h : Denotes s z) : strtoll s = (clamp z, []) ∧ number s = z := by
  obtain ⟨blanks, sgn, ds, rfl, hblanks, hsgn, hne, hds, rfl⟩ := h
  have htake : ds.takeWhile isDigit = ds := List.takeWhile_eq_self_iff.2 hds
  have hdrop : ds.dropWhile isDigit = [] := List.dropWhile_eq_nil_iff.2 hds
  rw [Decimal.strtoll, number, sign_dropWhile hblanks hsgn hne hds]
  simp only [htake, hdrop, if_neg hne, decide_eq_true_eq, and_self]

/-- digits, and then something else -/
theorem strtoll_digits {ds : List Byte} {c : Byte} (hne : ds ≠ []) (hds : ∀ c ∈ ds, isDigit c = true)
    (hc : isDigit c = false) (rest : List Byte) :
    strtoll (ds ++ c :: rest) = (clamp (value ds), c :: rest) := by
  obtain ⟨d, ds, rfl⟩ := List.exists_cons_of_ne_nil hne
  have hd := hds d List.mem_cons_self
  have hblank : ((d :: ds) ++ c :: rest).dropWhile isSpace = (d :: ds) ++ c :: rest :=
    List.dropWhile_cons_of_neg (by simp [not_isSpace_of_isDigit hd])
  have hsign : sign ((d :: ds) ++ c :: rest) = (false, (d :: ds) ++ c :: rest) := by
    rw [List.cons_append, sign]
    · rintro t ⟨⟩
      cases hd
    · rintro t ⟨⟩
      cases hd
  have htake : ((d :: ds) ++ c :: rest).takeWhile isDigit = d :: ds := by
    rw [List.takeWhile_append_of_pos hds, List.takeWhile_cons_of_neg (by simp [hc]), List.append_nil]
  have hdrop : ((d :: ds) ++ c :: rest).dropWhile isDigit = c :: rest := by
    rw [List.dropWhile_append_of_pos hds, List.dropWhile_cons_of_neg (by simp [hc])]
  rw [strtoll, hblank, hsign]
  simp only [htake, hdrop, if_neg hne, Bool.false_eq_true, if_false]

theorem Canonical.denotes {s : List Byte} (h : Canonical s) : Denotes s (value s) :=
  ⟨[], [], s, rfl, by simp, .inl rfl, h.ne_nil, h.digits, rfl⟩

end OsPractice.Decimal
