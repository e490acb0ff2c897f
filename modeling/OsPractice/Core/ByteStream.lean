/-
Byte streams between processes: pipes and stream sockets. Library: nothing here names a program.

A stream knows the processes that have its read end and its write end open, and holds what has been written and not
been read. A read waits while the stream is empty and somebody has the write end open; without a write end it finds
the end of the file. A write of no bytes has no effect.

Results: `read_eq_none`, `readSome_cases`, `read_all`, `write_all`: when a read waits, what it takes, when a write is
done.
-/
import Mathlib.Tactic

namespace OsPractice.ByteStream

structure Channel (P B : Type) where
  readers : List P
  writers : List P
  data : List B
  deriving DecidableEq, Repr

variable {P B : Type}

/-- `read` of at most `limit` bytes: all that there are, up to the limit, none at the end of the file; blocked while
there is nothing to read and somebody can write -/
def read (limit : ℕ) (s : Channel P B) : Option (Channel P B × List B) :=
  if s.data = [] ∧ s.writers ≠ [] then none
  else some ({ s with data := s.data.drop limit }, s.data.take limit)

/-- as `read`, where the environment chooses how many bytes `k` are returned -/
def readSome (limit k : ℕ) (s : Channel P B) : Option (Channel P B × List B) :=
  if s.data = [] then if s.writers = [] then some (s, []) else none
  else if 0 < k ∧ k ≤ limit ∧ k ≤ s.data.length then
    some ({ s with data := s.data.drop k }, s.data.take k)
  else none

/-- what `write` comes to -/
inductive Written (S : Type) where
  | blocked
  /-- nobody has the read end open: SIGPIPE -/
  | broken
  | done (s : S)

/-- `write` of so few bytes that it is atomic, to a stream that holds at most `capacity` bytes -/
def write (capacity : ℕ) (bs : List B) (s : Channel P B) : Written (Channel P B) :=
  if bs = [] then .done s
  else if s.readers = [] then .broken
  else if s.data.length + bs.length ≤ capacity then .done { s with data := s.data ++ bs }
  else .blocked

theorem read_eq_none {limit : ℕ} {s : Channel P B} : read limit s = none ↔ s.data = [] ∧ s.writers ≠ [] := by
  unfold read
  split_ifs with h
  · simp [h]
  · simpa using h

/-- a read finds the end of the file, or takes bytes from the front -/
theorem readSome_cases {limit k : ℕ} {s s' : Channel P B} {bs : List B} (h : readSome limit k s = some (s', bs)) :
    (s.data = [] ∧ s.writers = [] ∧ s' = s ∧ bs = []) ∨
      ∃ rest, s.data = bs ++ rest ∧ s' = { s with data := rest } ∧ bs ≠ [] ∧ bs.length ≤ limit := by
  unfold readSome at h
  split_ifs at h with hd hw hk
  · cases h
    exact .inl ⟨hd, hw, rfl, rfl⟩
  · cases h
    refine .inr ⟨s.data.drop k, (List.take_append_drop _ _).symm, rfl, ?_, ?_⟩
    · simpa [hd] using hk.1.ne'
    · rw [List.length_take]
      omega

theorem readSome_one {limit : ℕ} (hl : 0 < limit) {s : Channel P B} {b : B} {rest : List B} (hd : s.data = b :: rest) :
    readSome limit 1 s = some ({ s with data := rest }, [b]) := by
  rw [readSome, hd, if_neg (List.cons_ne_nil _ _), if_pos ⟨Nat.one_pos, hl, by simp⟩]
  rfl

theorem readSome_end {limit k : ℕ} {s : Channel P B} (hd : s.data = []) (hw : s.writers = []) :
    readSome limit k s = some (s, []) := by
  rw [readSome, if_pos hd, if_pos hw]

theorem read_all {limit : ℕ} {s : Channel P B} (hne : s.data ≠ []) (hl : s.data.length ≤ limit) :
    read limit s = some ({ s with data := [] }, s.data) := by
  rw [read, if_neg fun h => hne h.1, List.drop_eq_nil_of_le hl, List.take_of_length_le hl]

theorem write_all {capacity : ℕ} {bs : List B} {s : Channel P B} (hr : s.readers ≠ [])
    (hc : s.data.length + bs.length ≤ capacity) : write capacity bs s = .done { s with data := s.data ++ bs } := by
  unfold write
  split_ifs with h
  · simp [h]
  · rfl

variable [DecidableEq P]

/-- process `p` closes its read end -/
def closeRead (p : P) (s : Channel P B) : Channel P B := { s with readers := s.readers.erase p }

def closeWrite (p : P) (s : Channel P B) : Channel P B := { s with writers := s.writers.erase p }

/-- the end of process `p` stays open when another process closes its own -/
theorem mem_closeRead {p q : P} {s : Channel P B} (h : q ∈ s.readers) (hqp : q ≠ p) : q ∈ (closeRead p s).readers :=
  (List.mem_erase_of_ne hqp).2 h

theorem mem_closeWrite {p q : P} {s : Channel P B} (h : q ∈ s.writers) (hqp : q ≠ p) : q ∈ (closeWrite p s).writers :=
  (List.mem_erase_of_ne hqp).2 h

end OsPractice.ByteStream
