/-
A growing vector of `int`s (`mem_api/vector.c`). A push that finds one place left gives the block a new size, a quarter
more than the capacity, and makes that the capacity.

A quarter of a capacity below 4 is nothing, so such a vector never grows: its size passes the capacity, and from then on
no push finds one place left. And `realloc` is given the number of elements where it takes a number of bytes, so the
block has a byte for each element after the first growth.

A block is a list of bytes, `none` where nothing has been written yet. A store outside the block is lost, and a load from
there finds nothing. The product `capacity * 1.25` is exact and truncated, and has no upper bound; `realloc` never fails.

Results:
- `size_iff`: the size stays within the capacity exactly when the capacity is at least 4 or the pushes fill at most the
  initial capacity;
- `storage_iff`: the block keeps room for the capacity, and the elements, exactly when no push finds one place left.
-/
import OsPractice.Core.Bytes

namespace OsPractice.Vector

open Bytes

/-! ## Blocks of memory -/

/-- what is at `p` after `realloc(p, k)`: the first `k` bytes are kept -/
def realloc (block : List (Option Byte)) (k : ℕ) : List (Option Byte) :=
  block.take k ++ List.replicate (k - block.length) none

/-- a store at the offset `off`; what lies outside the block is lost -/
def store (block : List (Option Byte)) (off : ℕ) (bs : List Byte) : List (Option Byte) :=
  block.take off ++ (bs.map some).take (block.length - off) ++ block.drop (off + bs.length)

/-- the `int` at the offset `off` -/
def load (block : List (Option Byte)) (off : ℕ) : Option (BitVec 32) :=
  (((block.drop off).take intSize).mapM id).bind fun bs => if bs.length = intSize then some (decode bs) else none

variable {block : List (Option Byte)} {off : ℕ}

@[simp] theorem realloc_length (block : List (Option Byte)) (k : ℕ) : (realloc block k).length = k := by
  simp only [realloc, List.length_append, List.length_take, List.length_replicate]
  omega

@[simp] theorem store_length (block : List (Option Byte)) (off : ℕ) (bs : List Byte) :
    (store block off bs).length = block.length := by
  simp only [store, List.length_append, List.length_take, List.length_map, List.length_drop]
  omega

theorem mapM_some (bs : List Byte) : (bs.map some).mapM id = some bs := by
  induction bs with
  | nil => rfl
  | cons b bs ih => simp [ih]

/-- what is stored inside the block is loaded again -/
theorem load_store (h : off + intSize ≤ block.length) (v : BitVec 32) :
    load (store block off (encode v)) off = some v := by
  have htake : (((encode v).map some).take (block.length - off)) = (encode v).map some := by
    refine List.take_of_length_le ?_
    rw [List.length_map, encode_length]
    omega
  have hoff : (block.take off).length = off := by
    rw [List.length_take]
    omega
  have hbytes : ((store block off (encode v)).drop off).take intSize = (encode v).map some := by
    rw [store, htake, List.append_assoc, List.drop_left' hoff]
    exact List.take_left' (by simp)
  rw [load, hbytes, mapM_some]
  simp

theorem store_take (block : List (Option Byte)) (off : ℕ) (bs : List Byte) :
    (store block off bs).take off = block.take off := by
  rcases le_or_gt off block.length with h | h
  · rw [store, List.append_assoc]
    exact List.take_left' (by simpa using h)
  · have hrest : block.drop (off + bs.length) = [] := List.drop_eq_nil_of_le (by omega)
    have hstore : store block off bs = block.take off := by
      rw [store, hrest, Nat.sub_eq_zero_of_le h.le, List.take_zero, List.append_nil, List.append_nil]
    rw [hstore, List.take_take, min_self]

/-- a store leaves what is before it -/
theorem load_store_below {i : ℕ} (hi : i + intSize ≤ off) (bs : List Byte) :
    load (store block off bs) i = load block i := by
  have htake : (store block off bs).take (i + intSize) = block.take (i + intSize) :=
    calc (store block off bs).take (i + intSize)
        = ((store block off bs).take off).take (i + intSize) := by rw [List.take_take, min_eq_left hi]
      _ = (block.take off).take (i + intSize) := by rw [store_take]
      _ = block.take (i + intSize) := by rw [List.take_take, min_eq_left hi]
  have hbytes : ((store block off bs).drop i).take intSize = (block.drop i).take intSize := by
    rw [List.take_drop, List.take_drop, htake]
  rw [load, hbytes, load]

/-! ## The program -/

structure VectorT where
  data : List (Option Byte)
  capacity : ℕ
  size : ℕ
  deriving DecidableEq, Repr

/-- `v->capacity * 1.25` as an integer -/
def newCapacity (capacity : ℕ) : ℕ := capacity * 5 / 4

/-- the vector with the capacity that its next element needs -/
def grow (v : VectorT) : VectorT :=
  if v.size + 1 = v.capacity then
    let new_capacity := newCapacity v.capacity
    { v with data := realloc v.data new_capacity, capacity := new_capacity }
  else v

def pushBack (v : VectorT) (val : BitVec 32) : VectorT :=
  let v := grow v
  { v with data := store v.data (intSize * v.size) (encode val), size := v.size + 1 }

/-- one push after another -/
def pushAll (v : VectorT) (vals : List (BitVec 32)) : VectorT := vals.foldl pushBack v

/-- the elements that the vector holds, `none` for one that is not in its block -/
def VectorT.elements (v : VectorT) : List (Option (BitVec 32)) :=
  (List.range v.size).map fun i => load v.data (intSize * i)

/-- the block has room for the capacity, and holds the elements `xs` -/
def Stores (v : VectorT) (xs : List (Option (BitVec 32))) : Prop :=
  intSize * v.capacity ≤ v.data.length ∧ v.elements = xs

variable {v : VectorT}

@[simp] theorem pushBack_size (v : VectorT) (val : BitVec 32) : (pushBack v val).size = v.size + 1 := by
  simp only [pushBack, grow]
  split_ifs <;> rfl

@[simp] theorem pushAll_size (v : VectorT) (vals : List (BitVec 32)) :
    (pushAll v vals).size = v.size + vals.length := by
  induction vals generalizing v with
  | nil => rfl
  | cons val vals ih =>
    have := ih (pushBack v val)
    simp only [pushAll, List.foldl_cons, pushBack_size, List.length_cons] at this ⊢
    omega

theorem pushAll_concat (v : VectorT) (vals : List (BitVec 32)) (val : BitVec 32) :
    pushAll v (vals ++ [val]) = pushBack (pushAll v vals) val := by
  simp [pushAll]

/-- a push that does not find one place left -/
theorem pushBack_still (h : v.size + 1 ≠ v.capacity) (val : BitVec 32) :
    pushBack v val = { v with data := store v.data (intSize * v.size) (encode val), size := v.size + 1 } := by
  rw [pushBack, grow, if_neg h]

/-- a push that finds one place left -/
theorem pushBack_grow (h : v.size + 1 = v.capacity) (val : BitVec 32) :
    pushBack v val =
      { data := store (realloc v.data (newCapacity v.capacity)) (intSize * v.size) (encode val)
        capacity := newCapacity v.capacity
        size := v.size + 1 } := by
  rw [pushBack, grow, if_pos h]

/-! ## The capacity -/

theorem newCapacity_small {c : ℕ} (h : c < 4) : newCapacity c = c := by
  unfold newCapacity
  omega

theorem newCapacity_large {c : ℕ} (h : 4 ≤ c) : c < newCapacity c := by
  unfold newCapacity
  omega

/-- a capacity below 4 stays what it is -/
theorem pushBack_small (h : v.capacity < 4) (val : BitVec 32) : (pushBack v val).capacity = v.capacity := by
  by_cases hg : v.size + 1 = v.capacity
  · rw [pushBack_grow hg]
    exact newCapacity_small h
  · rw [pushBack_still hg]

theorem pushAll_small (h : v.capacity < 4) (vals : List (BitVec 32)) : (pushAll v vals).capacity = v.capacity := by
  induction vals using List.reverseRecOn with
  | nil => rfl
  | append_singleton vals val ih =>
    rw [pushAll_concat, pushBack_small (by rwa [ih]), ih]

/-- a capacity of at least 4 keeps ahead of the size -/
theorem pushBack_large (hc : 4 ≤ v.capacity) (hs : v.size < v.capacity) (val : BitVec 32) :
    4 ≤ (pushBack v val).capacity ∧ (pushBack v val).size < (pushBack v val).capacity := by
  by_cases hg : v.size + 1 = v.capacity
  · have hlt := newCapacity_large hc
    rw [pushBack_grow hg]
    exact ⟨hc.trans hlt.le, hg ▸ hlt⟩
  · rw [pushBack_still hg]
    exact ⟨hc, lt_of_le_of_ne hs hg⟩

theorem pushAll_large (hc : 4 ≤ v.capacity) (hs : v.size < v.capacity) (vals : List (BitVec 32)) :
    4 ≤ (pushAll v vals).capacity ∧ (pushAll v vals).size < (pushAll v vals).capacity := by
  induction vals using List.reverseRecOn with
  | nil => exact ⟨hc, hs⟩
  | append_singleton vals val ih =>
    rw [pushAll_concat]
    exact pushBack_large ih.1 ih.2 val

/-- **The size within the capacity.** A vector that has room for an element keeps its size within its capacity, after
each of any sequence of pushes, exactly when its capacity is at least 4 or the pushes fill at most the room there is. -/
theorem size_iff (v : VectorT) (hs : v.size < v.capacity) (vals : List (BitVec 32)) :
    (∀ done, done <+: vals → (pushAll v done).size ≤ (pushAll v done).capacity) ↔
      4 ≤ v.capacity ∨ v.size + vals.length ≤ v.capacity := by
  rcases lt_or_ge v.capacity 4 with hc | hc
  · constructor
    · intro h
      have hall := h vals (List.prefix_refl _)
      rw [pushAll_size, pushAll_small hc] at hall
      exact .inr hall
    · rintro h done hdone
      have hlen := hdone.length_le
      rw [pushAll_size, pushAll_small hc]
      omega
  · exact ⟨fun _ => .inl hc, fun _ done _ => (pushAll_large hc hs done).2.le⟩

/-- the vector of `main`, with a block of ten `int`s and a capacity of 3 -/
def mainVector : VectorT := ⟨List.replicate (intSize * 10) none, 3, 0⟩

theorem size_iff_main : (pushAll mainVector [10, 20, 30]).size ≤ (pushAll mainVector [10, 20, 30]).capacity :=
  (size_iff mainVector (by decide) [10, 20, 30]).2 (by decide) _ (List.prefix_refl _)

/-- the five pushes of `main` -/
theorem size_main : mainVector.size < mainVector.capacity ∧
    ¬ (pushAll mainVector [10, 20, 30, 40, 50]).size ≤ (pushAll mainVector [10, 20, 30, 40, 50]).capacity := by
  rw [pushAll_size, pushAll_small (by decide)]
  decide

/-! ## The block -/

/-- a push within the block -/
theorem pushBack_stores {xs : List (Option (BitVec 32))} (h : Stores v xs) (hs : v.size + 1 < v.capacity)
    (val : BitVec 32) : Stores (pushBack v val) (xs ++ [some val]) := by
  obtain ⟨hroom, rfl⟩ := h
  have hin : intSize * v.size + intSize ≤ v.data.length := by
    have := Nat.mul_le_mul_left intSize hs.le
    rw [Nat.mul_succ] at this
    omega
  rw [pushBack_still hs.ne]
  refine ⟨by simpa using hroom, ?_⟩
  simp only [VectorT.elements, List.range_succ, List.map_append, List.map_cons, List.map_nil, load_store hin]
  congr 1
  refine List.map_congr_left fun i hi => load_store_below ?_ _
  rw [← Nat.mul_succ]
  exact Nat.mul_le_mul_left _ (List.mem_range.1 hi)

theorem pushAll_capacity (vals : List (BitVec 32)) (hs : v.size + vals.length < v.capacity) :
    (pushAll v vals).capacity = v.capacity := by
  induction vals using List.reverseRecOn with
  | nil => rfl
  | append_singleton vals val ih =>
    rw [List.length_append, List.length_singleton] at hs
    have hcap := ih (by omega)
    rw [pushAll_concat, pushBack_still, hcap]
    rw [pushAll_size, hcap]
    omega

theorem pushAll_stores {xs : List (Option (BitVec 32))} (h : Stores v xs) (vals : List (BitVec 32))
    (hs : v.size + vals.length < v.capacity) : Stores (pushAll v vals) (xs ++ vals.map some) := by
  induction vals using List.reverseRecOn with
  | nil => simpa [pushAll] using h
  | append_singleton vals val ih =>
    rw [List.length_append, List.length_singleton] at hs
    have hcap := pushAll_capacity (v := v) vals (by omega)
    rw [pushAll_concat, List.map_append, ← List.append_assoc]
    refine pushBack_stores (ih (by omega)) ?_ val
    rw [pushAll_size, hcap]
    omega

/-- after a growth the block has as many bytes as the capacity says elements -/
def Shrunk (v : VectorT) : Prop := v.data.length = v.capacity ∧ 0 < v.capacity

theorem pushBack_shrunk (h : v.size + 1 = v.capacity) (val : BitVec 32) : Shrunk (pushBack v val) := by
  have hpos : 0 < newCapacity v.capacity := by
    unfold newCapacity
    omega
  rw [pushBack_grow h]
  exact ⟨by simp, hpos⟩

theorem Shrunk.pushBack (h : Shrunk v) (val : BitVec 32) : Shrunk (pushBack v val) := by
  by_cases hg : v.size + 1 = v.capacity
  · exact pushBack_shrunk hg val
  · rw [pushBack_still hg]
    exact ⟨by simpa using h.1, h.2⟩

theorem Shrunk.pushAll (h : Shrunk v) (vals : List (BitVec 32)) : Shrunk (pushAll v vals) := by
  induction vals using List.reverseRecOn with
  | nil => exact h
  | append_singleton vals val ih =>
    rw [pushAll_concat]
    exact ih.pushBack val

theorem Shrunk.not_stores (h : Shrunk v) (xs : List (Option (BitVec 32))) : ¬ Stores v xs := by
  rintro ⟨hroom, -⟩
  obtain ⟨hlen, hpos⟩ := h
  simp only [intSize] at hroom
  omega

/-- pushes that fill the room there is -/
theorem pushAll_fill (hs : v.size < v.capacity) (vals : List (BitVec 32))
    (hv : v.capacity ≤ v.size + vals.length) : Shrunk (pushAll v vals) := by
  -- after `n` pushes there is one place left
  obtain ⟨n, hn⟩ : ∃ n, v.size + n + 1 = v.capacity := ⟨v.capacity - v.size - 1, by omega⟩
  obtain ⟨val, hval⟩ : ∃ val, vals[n]? = some val := ⟨_, List.getElem?_eq_getElem (by omega)⟩
  have hsplit : vals = (vals.take n ++ [val]) ++ vals.drop (n + 1) := by
    have htake : vals.take (n + 1) = vals.take n ++ [val] := by simp [List.take_add_one, hval]
    rw [← htake, List.take_append_drop]
  have hlen : (vals.take n).length = n := by
    rw [List.length_take]
    omega
  have hgrow : (Vector.pushAll v (vals.take n)).size + 1 = (Vector.pushAll v (vals.take n)).capacity := by
    rw [pushAll_size, pushAll_capacity, hlen, hn]
    omega
  have hshrunk : Shrunk (Vector.pushAll v (vals.take n ++ [val])) := by
    rw [pushAll_concat]
    exact pushBack_shrunk hgrow val
  rw [hsplit, Vector.pushAll, List.foldl_append]
  exact hshrunk.pushAll _

/-- **The room in the block.** A vector whose block has room for its capacity keeps that room and its elements, those it
had and then those pushed, after each of any sequence of pushes, exactly when the pushes leave a place free. -/
theorem storage_iff (v : VectorT) (hb : intSize * v.capacity ≤ v.data.length) (hs : v.size < v.capacity)
    (vals : List (BitVec 32)) :
    (∀ done, done <+: vals → intSize * (pushAll v done).capacity ≤ (pushAll v done).data.length ∧
        (pushAll v done).elements = v.elements ++ done.map some) ↔
      v.size + vals.length < v.capacity := by
  constructor
  · intro h
    by_contra hv
    exact (pushAll_fill hs vals (not_lt.1 hv)).not_stores _ (h vals (List.prefix_refl _))
  · intro h done hdone
    have hlen := hdone.length_le
    exact pushAll_stores ⟨hb, rfl⟩ done (by omega)

theorem storage_iff_main :
    intSize * (pushAll mainVector [10, 20]).capacity ≤ (pushAll mainVector [10, 20]).data.length ∧
      (pushAll mainVector [10, 20]).elements = [some 10, some 20] :=
  (storage_iff mainVector (by decide) (by decide) [10, 20]).2 (by decide) _ (List.prefix_refl _)

/-- the first three pushes of `main`: the third leaves a block of three bytes -/
theorem storage_main : intSize * mainVector.capacity ≤ mainVector.data.length ∧
    (pushAll mainVector [10, 20, 30]).size ≤ (pushAll mainVector [10, 20, 30]).capacity ∧
    (pushAll mainVector [10, 20, 30]).data.length = 3 ∧
    ¬ intSize * (pushAll mainVector [10, 20, 30]).capacity ≤ (pushAll mainVector [10, 20, 30]).data.length := by
  decide

end OsPractice.Vector
