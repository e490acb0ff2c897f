/-
A ring of `n` slots seen through the history of the values put into it. Library: nothing here names a program.

The `i`-th value ever put goes to slot `i % n`. `Live` says that the values from the `lo`-th to the `hi`-th are in their
slots; storing the next one keeps that as long as the ring is not full (`Live.store`), and taking one does not write.
-/
import Mathlib.Tactic

namespace OsPractice.RingBuffer

variable {α : Type} {n : ℕ} [NeZero n]

/-- the slot of the `i`-th value -/
def slot (n : ℕ) [NeZero n] (i : ℕ) : Fin n := Fin.ofNat n i

/-- the index after `k`, as in `k = (k + 1) % n` -/
def next (k : Fin n) : Fin n := Fin.ofNat n (k + 1)

theorem next_slot (i : ℕ) : next (slot n i) = slot n (i + 1) := by
  apply Fin.ext
  simp [next, slot]

/-- fewer than `n` apart, two values are in different slots -/
theorem slot_ne {i j : ℕ} (hij : i < j) (hj : j < i + n) : slot n i ≠ slot n j := by
  intro h
  have h1 : i % n = j % n := congrArg Fin.val h
  have h2 : n ∣ j - i := (Nat.modEq_iff_dvd' hij.le).1 h1
  have h3 := Nat.le_of_dvd (by omega) h2
  omega

/-- the values of the history `h` from `lo` up to `hi` are in their slots -/
def Live (cells : Fin n → α) (h : List α) (lo hi : ℕ) : Prop :=
  ∀ i, lo ≤ i → i < hi → h[i]? = some (cells (slot n i))

theorem Live.load {cells : Fin n → α} {h : List α} {lo hi : ℕ} (hl : Live cells h lo hi) (hlt : lo < hi) :
    h[lo]? = some (cells (slot n lo)) := hl lo le_rfl hlt

theorem Live.take {cells : Fin n → α} {h : List α} {lo hi : ℕ} (hl : Live cells h lo hi) : Live cells h (lo + 1) hi :=
  fun i h1 h2 => hl i (by omega) h2

/-- a new value in the history leaves the slots alone -/
theorem Live.append {cells : Fin n → α} {h : List α} {lo hi : ℕ} (hl : Live cells h lo hi) (v : α) :
    Live cells (h ++ [v]) lo hi := fun i h1 h2 => by
  have h3 := hl i h1 h2
  have h4 : i < h.length := by
    by_contra hc
    rw [List.getElem?_eq_none (by omega)] at h3
    cases h3
  rw [List.getElem?_append_left h4]
  exact h3

/-- storing the next value overwrites none that is still there, unless the ring is full -/
theorem Live.store {cells : Fin n → α} {h : List α} {lo hi : ℕ} (hl : Live cells h lo hi) (hroom : hi < lo + n) {v : α}
    (hv : h[hi]? = some v) : Live (Function.update cells (slot n hi) v) h lo (hi + 1) := by
  intro i h1 h2
  by_cases hi' : i = hi
  · subst hi'
    rw [Function.update_self]
    exact hv
  · rw [Function.update_of_ne (slot_ne (by omega) (by omega))]
    exact hl i h1 (by omega)

omit [NeZero n] in
/-- a prefix extended by the next value is a prefix -/
theorem prefix_next {l m : List α} (h : l <+: m) {v : α} (hv : m[l.length]? = some v) : l ++ [v] <+: m := by
  obtain ⟨r, rfl⟩ := h
  rw [List.getElem?_append_right le_rfl, Nat.sub_self] at hv
  cases r with
  | nil => cases hv
  | cons a r =>
    cases hv
    exact ⟨r, by simp⟩

end OsPractice.RingBuffer
