/-
A database that is read entry by entry, as with `getgrent` or `getpwent`. Library: nothing here names a program.

The cursor belongs to the process: it stands where the last call has left it. At the end the calls return nothing, and
the cursor stays; `endent` puts it back to the beginning.

Results: `ahead_of_some`, `ahead_of_none`: what a call takes off the entries ahead; `left_lt`: a loop over the entries
ends.
-/
import Mathlib.Tactic

namespace OsPractice.Database

structure Db (E : Type) where
  entries : List E
  /-- the cursor -/
  pos : ℕ
  pos_le : pos ≤ entries.length

variable {E : Type} {d d' : Db E} {e : E}

/-- a database that has not been read -/
def Db.fresh (entries : List E) : Db E := ⟨entries, 0, Nat.zero_le _⟩

/-- the next entry -/
def getent (d : Db E) : Option (E × Db E) :=
  if h : d.pos < d.entries.length then some (d.entries[d.pos], { d with pos := d.pos + 1, pos_le := h }) else none

def endent (d : Db E) : Db E := Db.fresh d.entries

/-- the entries at and behind the cursor -/
def Db.ahead (d : Db E) : List E := d.entries.drop d.pos

/-- the entries before the cursor -/
def Db.passed (d : Db E) : List E := d.entries.take d.pos

theorem passed_ahead (d : Db E) : d.passed ++ d.ahead = d.entries := List.take_append_drop _ _

theorem getent_entries (h : getent d = some (e, d')) : d'.entries = d.entries ∧ d'.pos = d.pos + 1 := by
  unfold getent at h
  split_ifs at h
  cases h
  exact ⟨rfl, rfl⟩

theorem ahead_of_some (h : getent d = some (e, d')) : d.ahead = e :: d'.ahead := by
  unfold getent at h
  split_ifs at h with hpos
  cases h
  exact List.drop_eq_getElem_cons hpos

theorem ahead_of_none (h : getent d = none) : d.ahead = [] := by
  unfold getent at h
  split_ifs at h with hpos
  exact List.drop_eq_nil_of_le (Nat.le_of_not_lt hpos)

theorem left_lt (h : getent d = some (e, d')) : d'.ahead.length < d.ahead.length := by
  rw [ahead_of_some h]
  exact Nat.lt_succ_self _

end OsPractice.Database
