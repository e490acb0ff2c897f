/-
A flag that one thread waits for and another one sets, under a mutex and with a condition variable. Library: nothing
here names a program.

`await` is the loop that sleeps while the flag is not set, `announce` sets the flag and signals. Every lock, unlock,
test, store and signal is one step; the waiter falls asleep and releases the mutex in one step, and a sleeper may wake up
without a signal. The mutex may serve several flags.

Results:
- `awaitLeft_await`, `announceLeft_announce`: each step brings its thread nearer to the end, and only a wake-up without
  a signal sets it back;
- `await_blocked`, `announce_blocked`: what a thread waits for that cannot take a step.
-/
import OsPractice.Core.Monitor

namespace OsPractice.Latch

open Monitor

variable {T : Type} [DecidableEq T]

/-- what the environment chooses: the threads that a signal wakes, and whether a sleeper wakes up by itself -/
structure Choice (T : Type) where
  woken : Finset T
  spurious : Bool
  deriving DecidableEq

/-- points of the waiter; at `asleep` it is in `pthread_cond_wait`, asleep if the condition variable has it -/
inductive AwaitPc where
  | lock
  | test
  | condWait
  | asleep
  | unlock
  deriving DecidableEq, Repr

/-- points of the thread that sets the flag -/
inductive AnnouncePc where
  | lock
  | store
  | signal
  | unlock
  deriving DecidableEq, Repr

def await (t : T) (c : Choice T) (m : Mutex T) (cond : Cond T) (flag : Bool) :
    AwaitPc → Option (Mutex T × Cond T × Option AwaitPc)
  | .lock => (Monitor.lock t m).map fun m => (m, cond, some .test)
  | .test => some (m, cond, some (if flag then .unlock else .condWait))
  | .condWait => some (none, insert t cond, some .asleep)
  | .asleep =>
    if t ∈ cond then
      if c.spurious then some (m, cond.erase t, some .asleep) else none
    else (Monitor.lock t m).map fun m => (m, cond, some .test)
  | .unlock => some (none, cond, none)

def announce (t : T) (c : Choice T) (m : Mutex T) (cond : Cond T) (flag : Bool) :
    AnnouncePc → Option (Mutex T × Cond T × Bool × Option AnnouncePc)
  | .lock => (Monitor.lock t m).map fun m => (m, cond, flag, some .store)
  | .store => some (m, cond, true, some .signal)
  | .signal => (Monitor.signal c.woken cond).map fun cond => (m, cond, flag, some .unlock)
  | .unlock => some (none, cond, flag, none)

/-- the waiter has the mutex -/
def AwaitPc.inside : AwaitPc → Bool
  | .test | .condWait | .unlock => true
  | _ => false

def AnnouncePc.inside : AnnouncePc → Bool
  | .lock => false
  | _ => true

variable {t : T} {c : Choice T} {m m' : Mutex T} {cond cond' : Cond T} {flag flag' : Bool}

/-! ## The steps that are left -/

/-- for the waiter, without wake-ups that no signal causes; `asleep` says that the condition variable has it -/
def awaitLeft (asleep flag : Bool) : AwaitPc → ℕ
  | .lock => 6
  | .test => if flag then 2 else 5
  | .condWait => 4
  | .asleep => if asleep || flag then 3 else 6
  | .unlock => 1

def announceLeft : AnnouncePc → ℕ
  | .lock => 4
  | .store => 3
  | .signal => 2
  | .unlock => 1

/-- the waiter comes nearer to its end with every step, but for a wake-up without a signal, which costs three steps -/
theorem awaitLeft_await {p : AwaitPc} {q : Option AwaitPc} (h : await t c m cond flag p = some (m', cond', q)) :
    (q.elim 0 (awaitLeft (t ∈ cond') flag)) + 1 ≤ awaitLeft (t ∈ cond) flag p + if c.spurious then 4 else 0 := by
  cases p with
  | lock =>
    obtain ⟨-, he⟩ := lock_step h
    cases he
    refine le_trans ?_ (Nat.le_add_right _ _)
    cases flag <;> simp [awaitLeft]
  | test =>
    cases h
    cases flag <;> simp [awaitLeft]
  | condWait =>
    cases h
    simp [awaitLeft]
  | asleep =>
    simp only [await] at h
    split_ifs at h with hc hs
    · cases h
      cases flag <;> simp [awaitLeft, hc, hs]
    · obtain ⟨-, he⟩ := lock_step h
      cases he
      cases flag <;> simp [awaitLeft, hc]
  | unlock =>
    cases h
    simp [awaitLeft]

theorem announceLeft_announce {p : AnnouncePc} {q : Option AnnouncePc}
    (h : announce t c m cond flag p = some (m', cond', flag', q)) : (q.elim 0 announceLeft) + 1 ≤ announceLeft p := by
  cases p with
  | lock =>
    obtain ⟨-, he⟩ := lock_step h
    cases he
    simp [announceLeft]
  | signal =>
    obtain ⟨cond₁, -, he⟩ := Option.map_eq_some_iff.1 h
    cases he
    simp [announceLeft]
  | _ =>
    cases h
    simp [announceLeft]

/-- a waiter that is not woken up before the flag is set is not farther from its end -/
theorem awaitLeft_mono {a a' : Bool} (h : (a' = a ∧ flag' = flag) ∨ flag' = true) (p : AwaitPc) :
    awaitLeft a' flag' p ≤ awaitLeft a flag p := by
  rcases h with ⟨rfl, rfl⟩ | rfl
  · exact le_rfl
  · cases a <;> cases a' <;> cases flag <;> cases p <;> simp [awaitLeft]

/-! ## Blocked threads -/

/-- a waiter that cannot take a step sleeps, or the mutex is locked -/
theorem await_blocked {p : AwaitPc} (h : ∀ c, c.spurious = false → await t c m cond flag p = none) :
    p.inside = false ∧ ((p = .asleep ∧ t ∈ cond) ∨ m ≠ none) := by
  have h1 := h ⟨∅, false⟩ rfl
  cases p with
  | lock => exact ⟨rfl, .inr (lock_eq_none.1 (Option.map_eq_none_iff.1 h1))⟩
  | asleep =>
    simp only [await] at h1
    split_ifs at h1 with hc
    · exact ⟨rfl, .inl ⟨rfl, hc⟩⟩
    · exact ⟨rfl, .inr (lock_eq_none.1 (Option.map_eq_none_iff.1 h1))⟩
  | _ => cases h1

theorem announce_blocked {p : AnnouncePc} (h : ∀ c, c.spurious = false → announce t c m cond flag p = none) :
    p.inside = false ∧ m ≠ none := by
  cases p with
  | lock => exact ⟨rfl, lock_eq_none.1 (Option.map_eq_none_iff.1 (h ⟨∅, false⟩ rfl))⟩
  | signal =>
    -- the signal can always wake every sleeper
    have h1 := Option.map_eq_none_iff.1 (h ⟨cond, false⟩ rfl)
    simp [Monitor.signal] at h1
  | _ => cases h ⟨∅, false⟩ rfl

end OsPractice.Latch
