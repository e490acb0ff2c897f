/-
FIFOs (named pipes). Library: nothing here names a program.

A FIFO counts its readers and its writers, and holds what has been written and not been read. A write of a message of at
most `PIPE_BUF` bytes is atomic, so the content is a list of whole messages. It has no bound: a writer that would block
on a full pipe is one that is not scheduled.

A blocking open enters first and then waits for the other side, which need not be open any more when the wait ends: it
ends as soon as somebody has opened the other side (`rOpens`, `wOpens` count the opens). What a FIFO holds is lost when
its last reader and its last writer have closed it.
-/
import Mathlib.Tactic

namespace OsPractice.Pipe

structure Fifo (M : Type) where
  readers : ℕ
  writers : ℕ
  rOpens : ℕ
  wOpens : ℕ
  data : List M
  deriving DecidableEq, Repr

variable {M : Type}

/-- a FIFO that nobody has opened -/
def fresh : Fifo M := ⟨0, 0, 0, 0, []⟩

/-- `open(O_RDONLY)` enters; it then waits for a writer if there is none -/
def openRead (f : Fifo M) : Fifo M := { f with readers := f.readers + 1, rOpens := f.rOpens + 1 }

/-- `open(O_WRONLY)` enters; it then waits for a reader if there is none -/
def openWrite (f : Fifo M) : Fifo M := { f with writers := f.writers + 1, wOpens := f.wOpens + 1 }

/-- `open(O_WRONLY | O_NONBLOCK)`, which fails (ENXIO) without a reader -/
def openWriteNonblock (f : Fifo M) : Option (Fifo M) := if f.readers = 0 then none else some (openWrite f)

/-- `read`: a message, or the end of the file (`none`); blocked while there are writers and nothing to read -/
def read (f : Fifo M) : Option (Fifo M × Option M) :=
  match f.data with
  | m :: data => some ({ f with data := data }, some m)
  | [] => if f.writers = 0 then some (f, none) else none

/-- `write`, which fails (SIGPIPE or EPIPE) without a reader -/
def write (m : M) (f : Fifo M) : Option (Fifo M) :=
  if f.readers = 0 then none else some { f with data := f.data ++ [m] }

/-- what is left once nobody has the FIFO open -/
def settle (f : Fifo M) : Fifo M := if f.readers = 0 ∧ f.writers = 0 then { f with data := [] } else f

def closeRead (f : Fifo M) : Fifo M := settle { f with readers := f.readers - 1 }

def closeWrite (f : Fifo M) : Fifo M := settle { f with writers := f.writers - 1 }

@[simp] theorem settle_readers (f : Fifo M) : (settle f).readers = f.readers := by
  unfold settle
  split_ifs <;> rfl

theorem settle_data (f : Fifo M) : (settle f).data.Sublist f.data := by
  unfold settle
  split_ifs
  · exact List.nil_sublist _
  · exact List.Sublist.refl _

theorem closeRead_data (f : Fifo M) : (closeRead f).data.Sublist f.data :=
  settle_data { f with readers := f.readers - 1 }

theorem closeWrite_data (f : Fifo M) : (closeWrite f).data.Sublist f.data :=
  settle_data { f with writers := f.writers - 1 }

/-- what a read finds -/
theorem read_eq_some {f f' : Fifo M} {m : Option M} (h : read f = some (f', m)) :
    (∃ x data, f.data = x :: data ∧ m = some x ∧ f' = { f with data := data }) ∨
    f.data = [] ∧ f.writers = 0 ∧ m = none ∧ f' = f := by
  obtain ⟨readers, writers, rOpens, wOpens, data⟩ := f
  rcases data with _ | ⟨x, data⟩
  · simp only [read] at h
    split_ifs at h with hw
    cases h
    exact .inr ⟨rfl, hw, rfl, rfl⟩
  · cases h
    exact .inl ⟨x, data, rfl, rfl, rfl⟩

end OsPractice.Pipe
