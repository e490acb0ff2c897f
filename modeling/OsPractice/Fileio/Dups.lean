/-
`dup` and `dup2` over `fcntl` (`fileio/dups.c`; the command that is spelled `F_DUPDF` there is `F_DUPFD`).

`dup2` closes `newfd` and duplicates `oldfd` to the lowest descriptor that is free. That is `newfd` only where no lower
descriptor is free.

A table has an entry for each descriptor that a process may have. The system call `fcntl` fails for its documented
reasons: a descriptor that is not open, and a table without a free descriptor from the given one on.

Results:
- `lowestFree_eq_some`, `dup_open`: which descriptor a duplicate gets;
- `dup2_iff`: when `dup2` does what it is for.
-/
import Mathlib.Tactic

namespace OsPractice.Dups

/-! ## Tables of descriptors -/

/-- an open descriptor: the open file that it refers to, and its close-on-exec flag -/
structure Descriptor (F : Type) where
  file : F
  cloexec : Bool
  deriving DecidableEq, Repr

abbrev Table (F : Type) := List (Option (Descriptor F))

variable {F : Type}

/-- what a descriptor refers to, if it is open -/
def Table.at (t : Table F) (fd : ℤ) : Option (Descriptor F) := if 0 ≤ fd then (t[fd.toNat]?).join else none

/-- the lowest free descriptor that is not below `m` -/
def lowestFree (t : Table F) (m : ℕ) : Option ℕ :=
  (List.range t.length).find? fun n => m ≤ n ∧ (t.at n).isNone

inductive Errno where
  | EBADF
  | EMFILE
  deriving DecidableEq, Repr

inductive Cmd where
  | F_GETFD
  | F_DUPFD (m : ℕ)
  deriving DecidableEq, Repr

def fcntl (t : Table F) (fd : ℤ) (cmd : Cmd) : Except Errno (ℤ × Table F) :=
  match t.at fd, cmd with
  | none, _ => .error .EBADF
  | some d, .F_GETFD => .ok (if d.cloexec then 1 else 0, t)
  | some d, .F_DUPFD m =>
    match lowestFree t m with
    | none => .error .EMFILE
    | some n => .ok (n, t.set n (some ⟨d.file, false⟩))

/-- `close`; one of a descriptor that is not open fails and changes nothing -/
def close (t : Table F) (fd : ℤ) : Table F := if (t.at fd).isSome then t.set fd.toNat none else t

/-! ## The program -/

def dup (t : Table F) (oldfd : ℤ) : ℤ × Table F :=
  match fcntl t oldfd (.F_DUPFD 0) with
  | .ok r => r
  | .error _ => (-1, t)

def fdIsValid (t : Table F) (fd : ℤ) : Bool :=
  match fcntl t fd .F_GETFD with
  | .ok r => r.1 ≠ -1
  | .error errno => errno ≠ .EBADF

def dup2 (t : Table F) (oldfd newfd : ℤ) : ℤ × Table F :=
  if fdIsValid t oldfd then
    if oldfd = newfd then (newfd, t) else dup (close t newfd) oldfd
  else (-1, t)

/-! ## Which descriptor is free -/

variable {t : Table F} {m n : ℕ} {fd oldfd newfd : ℤ} {d : Descriptor F}

/-- an entry that is set, and the others -/
theorem Table.at_set (t : Table F) (hn : n < t.length) (e : Option (Descriptor F)) (fd : ℤ) :
    Table.at (t.set n e) fd = if fd = n then e else t.at fd := by
  unfold Table.at
  by_cases h0 : 0 ≤ fd
  · obtain ⟨k, rfl⟩ := Int.eq_ofNat_of_zero_le h0
    by_cases hk : k = n
    · simp [hk, hn]
    · have hk' : ¬ (k : ℤ) = n := by exact_mod_cast hk
      simp [hk', List.getElem?_set_ne (Ne.symm hk)]
  · have hne : fd ≠ n := by omega
    simp [h0, hne]

theorem lowestFree_eq_some : lowestFree t m = some n ↔
    (m ≤ n ∧ t.at n = none) ∧ n < t.length ∧ ∀ k, m ≤ k → k < n → t.at k ≠ none := by
  simp only [lowestFree, List.find?_range_eq_some, List.mem_range]
  constructor
  · rintro ⟨hn, hlen, hlow⟩
    refine ⟨by simpa using hn, hlen, fun k hm hk => ?_⟩
    have := hlow k hk
    simpa [hm] using this
  · rintro ⟨hn, hlen, hlow⟩
    refine ⟨by simpa using hn, hlen, fun k hk => ?_⟩
    have := hlow k
    simp only [Bool.not_eq_eq_eq_not, Bool.not_true, decide_eq_false_iff_not, not_and, Option.isNone_iff_eq_none]
    exact fun hm => this hm hk

/-- there is a lowest free descriptor where there is a free one -/
theorem lowestFree_le (hm : m ≤ n) (hn : n < t.length) (h : t.at n = none) : ∃ k, lowestFree t m = some k ∧ k ≤ n := by
  cases hk : lowestFree t m with
  | none =>
    have hnone := List.find?_eq_none.1 hk n (List.mem_range.2 hn)
    simp [hm, h] at hnone
  | some k =>
    obtain ⟨-, -, hlow⟩ := lowestFree_eq_some.1 hk
    exact ⟨k, rfl, not_lt.1 fun hlt => hlow n hm hlt h⟩

theorem fdIsValid_iff : fdIsValid t fd = true ↔ t.at fd ≠ none := by
  unfold fdIsValid fcntl
  cases t.at fd with
  | none => simp
  | some d => cases hc : d.cloexec <;> simp [hc]

/-! ## `dup` and `dup2` -/

/-- a duplicate of an open descriptor, where a descriptor `n` is free and no lower one is -/
theorem dup_open (hd : t.at oldfd = some d) (hn : lowestFree t 0 = some n) :
    dup t oldfd = ((n : ℤ), t.set n (some ⟨d.file, false⟩)) := by
  simp [dup, fcntl, hd, hn]

theorem close_at (t : Table F) (hn : n < t.length) (fd : ℤ) :
    (close t n).at fd = if fd = n then none else t.at fd := by
  unfold close
  split_ifs with hopen hfd hfd
  · rw [Int.toNat_natCast, Table.at_set t hn, if_pos hfd]
  · rw [Int.toNat_natCast, Table.at_set t hn, if_neg hfd]
  · rw [hfd]
    simpa using hopen
  · rfl

@[simp] theorem close_length (t : Table F) (fd : ℤ) : (close t fd).length = t.length := by
  unfold close
  split_ifs <;> simp

/-- `dup2` of two different descriptors: the lowest descriptor that is free once `newfd` has been closed -/
theorem dup2_open (hd : t.at oldfd = some d) (hne : oldfd ≠ n) (hn : n < t.length) :
    ∃ k : ℕ, k ≤ n ∧ dup2 t oldfd n = ((k : ℤ), (close t n).set k (some ⟨d.file, false⟩)) ∧
      (k < n → t.at k = none) ∧ ∀ j < k, t.at j ≠ none := by
  have hlen : n < (close t n).length := by simpa using hn
  have hfree : (close t n).at n = none := by simp [close_at t hn]
  have hold : (close t n).at oldfd = some d := by rw [close_at t hn, if_neg hne, hd]
  have hvalid : fdIsValid t oldfd = true := fdIsValid_iff.2 (by simp [hd])
  obtain ⟨k, hk, hkn⟩ := lowestFree_le (Nat.zero_le n) hlen hfree
  obtain ⟨⟨-, hkfree⟩, -, hlow⟩ := lowestFree_eq_some.1 hk
  refine ⟨k, hkn, ?_, fun hlt => ?_, fun j hj => ?_⟩
  · rw [dup2, if_pos hvalid, if_neg hne, dup_open hold hk]
  · have hk' : (k : ℤ) ≠ n := by exact_mod_cast hlt.ne
    rwa [close_at t hn, if_neg hk'] at hkfree
  · have hj' : (j : ℤ) ≠ n := by exact_mod_cast (hj.trans_le hkn).ne
    have := hlow j (Nat.zero_le j) hj
    rwa [close_at t hn, if_neg hj'] at this

/-- **`dup2`.** For every table, every `oldfd` and every `newfd` that a table has an entry for, `dup2` does what it is for
exactly when `oldfd` is not open, or is `newfd`, or every descriptor below `newfd` is open. -/
theorem dup2_iff (t : Table F) (oldfd newfd : ℤ) (h0 : 0 ≤ newfd) (hlen : newfd < t.length) :
    ((∀ d, t.at oldfd = some d → (dup2 t oldfd newfd).1 = newfd ∧
        ((dup2 t oldfd newfd).2.at newfd).map Descriptor.file = some d.file ∧
        ∀ fd, fd ≠ newfd → (dup2 t oldfd newfd).2.at fd = t.at fd) ∧
      (t.at oldfd = none → dup2 t oldfd newfd = (-1, t))) ↔
    t.at oldfd = none ∨ oldfd = newfd ∨ ∀ fd, 0 ≤ fd → fd < newfd → t.at fd ≠ none := by
  obtain ⟨n, rfl⟩ := Int.eq_ofNat_of_zero_le h0
  have hn : n < t.length := by exact_mod_cast hlen
  cases hd : t.at oldfd with
  | none =>
    have hvalid : ¬ fdIsValid t oldfd = true := fun h => fdIsValid_iff.1 h hd
    simp [dup2, hvalid]
  | some d =>
    have hvalid : fdIsValid t oldfd = true := fdIsValid_iff.2 (by simp [hd])
    by_cases hne : oldfd = n
    · subst hne
      simp [dup2, hvalid, hd]
    · obtain ⟨k, hkn, hr, hfree, hlow⟩ := dup2_open hd hne hn
      rw [hr]
      constructor
      · rintro ⟨h, -⟩
        obtain ⟨hret, -⟩ := h d rfl
        have hkn : k = n := Int.natCast_inj.1 hret
        subst hkn
        refine .inr (.inr fun fd hfd0 hfd => ?_)
        obtain ⟨j, rfl⟩ := Int.eq_ofNat_of_zero_le hfd0
        exact hlow j (by exact_mod_cast hfd)
      · rintro (h | h | h)
        · cases h
        · exact absurd h hne
        · -- a lower descriptor would have been free before the `close`
          have hkn : k = n := by
            by_contra hk
            have hlt : k < n := lt_of_le_of_ne hkn hk
            exact h k (by positivity) (by exact_mod_cast hlt) (hfree hlt)
          subst hkn
          have hset := Table.at_set (close t k) (by simpa using hn) (some ⟨d.file, false⟩)
          refine ⟨fun d' hd' => ?_, nofun⟩
          cases hd'
          refine ⟨rfl, by simp [hset], fun fd hfd => ?_⟩
          rw [hset, if_neg hfd, close_at t hn, if_neg hfd]

/-- the standard streams are open, and 3 becomes a duplicate of 1 -/
theorem dup2_iff_stdout : (dup2 [some ⟨'i', false⟩, some ⟨'o', false⟩, some ⟨'e', false⟩, none] 1 3).1 = 3 :=
  (((dup2_iff [some ⟨'i', false⟩, some ⟨'o', false⟩, some ⟨'e', false⟩, none] 1 3 (by decide) (by decide)).2
    (.inr (.inr fun fd h0 h => by interval_cases fd <;> decide))).1 ⟨'o', false⟩ (by decide)).1

/-- descriptor 0 is closed: `dup2(1, 2)` returns 0, and 2 is left closed -/
theorem dup2_low : Table.at [none, some ⟨'o', false⟩, some ⟨'e', false⟩] 1 = some ⟨'o', false⟩ ∧
    dup2 [none, some ⟨'o', false⟩, some ⟨'e', false⟩] 1 2 = (0, [some ⟨'o', false⟩, some ⟨'o', false⟩, none]) ∧
    (dup2 [none, some ⟨'o', false⟩, some ⟨'e', false⟩] 1 2).1 ≠ 2 ∧
    (dup2 [none, some ⟨'o', false⟩, some ⟨'e', false⟩] 1 2).2.at 2 = none := by
  decide

end OsPractice.Dups
