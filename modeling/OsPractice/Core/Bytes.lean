/-
Numbers as bytes, and files. Library: nothing here names a program.

An `int` is a `BitVec 32`; in memory and in a file it takes four bytes, the least significant first. A file is a list of
bytes; it is read and written at an offset, and a write behind the end fills the gap with zeros. A text in a buffer ends
before the first NUL.

Results: `decode_encode`, `read_write`; `toInt_ofNat`, `toInt_sum`: numbers and sums that an `int` can hold;
`cstring_append`, `cstring_set`: the text in a buffer.
-/
import Mathlib.Tactic
import Mathlib.Data.BitVec

namespace OsPractice.Bytes

abbrev Byte := BitVec 8

/-- a character of ASCII -/
def byte (c : Char) : Byte := BitVec.ofNat 8 c.toNat

def text (s : String) : List Byte := s.toList.map byte

/-- the `n` least significant bytes of `v` -/
def toBytes : ℕ → ℕ → List Byte
  | 0, _ => []
  | n + 1, v => BitVec.ofNat 8 v :: toBytes n (v / 256)

def ofBytes : List Byte → ℕ
  | [] => 0
  | b :: bs => b.toNat + 256 * ofBytes bs

@[simp] theorem toBytes_length (n v : ℕ) : (toBytes n v).length = n := by
  induction n generalizing v with
  | zero => rfl
  | succ n ih => simp [toBytes, ih]

theorem ofBytes_toBytes (n v : ℕ) : ofBytes (toBytes n v) = v % 256 ^ n := by
  induction n generalizing v with
  | zero => simp [toBytes, ofBytes, Nat.mod_one]
  | succ n ih =>
    have h : v % 256 ^ (n + 1) = v % 256 + 256 * (v / 256 % 256 ^ n) := by
      rw [pow_succ, mul_comm (256 ^ n), Nat.mod_mul]
    rw [toBytes, ofBytes, ih, h]
    simp

/-- `sizeof(int)` -/
def intSize : ℕ := 4

def encode (v : BitVec 32) : List Byte := toBytes intSize v.toNat

def decode (bs : List Byte) : BitVec 32 := BitVec.ofNat 32 (ofBytes bs)

@[simp] theorem encode_length (v : BitVec 32) : (encode v).length = intSize := toBytes_length _ _

@[simp] theorem decode_encode (v : BitVec 32) : decode (encode v) = v := by
  have hv : v.toNat < 256 ^ 4 := v.isLt
  rw [decode, encode, ofBytes_toBytes, intSize, Nat.mod_eq_of_lt hv]
  simp

/-- a number that an `int` can hold -/
theorem toInt_ofNat {n : ℕ} (h : n < 2 ^ 31) : (BitVec.ofNat 32 n).toInt = n := by
  rw [BitVec.toInt_eq_toNat_cond, BitVec.toNat_ofNat, Nat.mod_eq_of_lt (by omega), if_pos (by omega)]

theorem toInt_add {v w : BitVec 32} (hl : - 2 ^ 31 ≤ v.toInt + w.toInt) (hu : v.toInt + w.toInt < 2 ^ 31) :
    (v + w).toInt = v.toInt + w.toInt := by
  rw [BitVec.toInt_add, Int.bmod_eq_of_le] <;> omega

/-- an increment that overflows gives less, not more -/
theorem toInt_add_one_le (v : BitVec 32) : (v + 1).toInt ≤ v.toInt + 1 := by
  by_cases hv : v.toInt + 1 < 2 ^ 31
  · have hlow := BitVec.le_toInt v
    exact (toInt_add (w := 1) (by simp; omega) (by simpa using hv)).le
  · have hup := BitVec.toInt_lt (x := v + 1)
    omega

/-- a decrement of a positive number does not overflow -/
theorem toInt_sub_one {v : BitVec 32} (h : 0 < v.toInt) : (v - 1).toInt = v.toInt - 1 := by
  have hup := BitVec.toInt_lt (x := v)
  rw [BitVec.toInt_sub, Int.bmod_eq_of_le] <;> simp <;> omega

/-- a sum of `int`s that are not negative, without overflow -/
theorem toInt_sum (vs : List (BitVec 32)) (n : BitVec 32) (hvs : ∀ v ∈ vs, 0 ≤ v.toInt)
    (hb : n.toInt + (vs.map BitVec.toInt).sum < 2 ^ 31) : (n + vs.sum).toInt = n.toInt + (vs.map BitVec.toInt).sum := by
  induction vs generalizing n with
  | nil => simp
  | cons v vs ih =>
    have hv := hvs v List.mem_cons_self
    have hvs' := fun w hw => hvs w (List.mem_cons_of_mem _ hw)
    have h0 : 0 ≤ (vs.map BitVec.toInt).sum := by
      refine List.sum_nonneg fun x hx => ?_
      obtain ⟨w, hw, rfl⟩ := List.mem_map.1 hx
      exact hvs' w hw
    have hn := BitVec.le_toInt n
    rw [List.map_cons, List.sum_cons] at hb ⊢
    have hadd : (n + v).toInt = n.toInt + v.toInt := toInt_add (by omega) (by omega)
    have := ih (n + v) hvs' (by omega)
    rw [List.sum_cons, ← BitVec.add_assoc, this, hadd]
    ring

/-- `read` of at most `n` bytes at offset `off` -/
def readAt (file : List Byte) (off n : ℕ) : List Byte := (file.drop off).take n

/-- `write` of the bytes `bs` at offset `off` -/
def writeAt (file : List Byte) (off : ℕ) (bs : List Byte) : List Byte :=
  file.take off ++ List.replicate (off - file.length) 0 ++ bs ++ file.drop (off + bs.length)

/-- what has been written into an empty file is read back -/
theorem read_write (bs : List Byte) : readAt (writeAt [] 0 bs) 0 bs.length = bs := by
  simp [readAt, writeAt]

/-! ## Buffers -/

/-- a buffer after the bytes `bs` have been copied to its beginning -/
def fill (buf bs : List Byte) : List Byte := bs ++ buf.drop bs.length

/-- the text in a buffer -/
def cstring (buf : List Byte) : List Byte := buf.takeWhile (· ≠ 0)

theorem fill_length {buf bs : List Byte} (h : bs.length ≤ buf.length) : (fill buf bs).length = buf.length := by
  simp only [fill, List.length_append, List.length_drop]
  omega

@[simp] theorem fill_take (buf bs : List Byte) : (fill buf bs).take bs.length = bs := by simp [fill]

/-- what stands before the first `a` -/
theorem takeWhile_ne {A : Type} [DecidableEq A] {a : A} {w : List A} (h : a ∉ w) (rest : List A) :
    (w ++ a :: rest).takeWhile (· ≠ a) = w := by
  have hall : ∀ b ∈ w, decide (b ≠ a) = true := fun b hb => decide_eq_true (ne_of_mem_of_not_mem hb h)
  rw [List.takeWhile_append_of_pos hall]
  simp

theorem cstring_append {bs : List Byte} (h : 0 ∉ bs) (rest : List Byte) : cstring (bs ++ 0 :: rest) = bs :=
  takeWhile_ne h rest

/-- `buf[n] = '\0'` ends the text -/
theorem cstring_set {buf : List Byte} {n : ℕ} (hn : n < buf.length) (h : 0 ∉ buf.take n) :
    cstring (buf.set n 0) = buf.take n := by
  rw [List.set_eq_take_append_cons_drop, if_pos hn]
  exact cstring_append h _

/-- the elements of an array that have been assigned, and one more -/
theorem take_set_list {A : Type} {l : List A} {i : ℕ} (x : A) (h : i < l.length) :
    (l.set i x).take (i + 1) = l.take i ++ [x] := by
  rw [List.set_eq_take_append_cons_drop, if_pos h, List.take_append, List.length_take, Nat.min_eq_left h.le,
    List.take_take, Nat.min_eq_right (Nat.le_succ i), Nat.add_sub_cancel_left]
  rfl

theorem take_set {A : Type} {n i : ℕ} (v : Vector A n) (x : A) (h : i < n) :
    (v.set i x).toList.take (i + 1) = v.toList.take i ++ [x] := by
  rw [Vector.toList_set, take_set_list x (by simpa using h)]

end OsPractice.Bytes
