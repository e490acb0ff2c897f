/-
Mutexes, condition variables and semaphores. Library: nothing here names a program.

A mutex records the thread that has locked it. A condition variable is the set of the threads asleep on it. `signal`
wakes at least one of them if there are any; which ones is a choice of the environment, and so is a wake-up without a
signal. The value of a semaphore is a natural number, and a wait is enabled only at a positive value.

The invariant of a mutex is `Guards`: it is locked by the one thread that is inside, if any.
-/
import Mathlib.Tactic
import Mathlib.Data.Finset.Basic

namespace OsPractice.Monitor

variable {T : Type}

/-- the thread that has locked the mutex -/
abbrev Mutex (T : Type) := Option T

/-- `pthread_mutex_lock` by thread `t`, blocked (`none`) while the mutex is locked -/
def lock (t : T) : Mutex T → Option (Mutex T)
  | none => some (some t)
  | some _ => none

@[simp] theorem lock_eq_some {t : T} {m m' : Mutex T} : lock t m = some m' ↔ m = none ∧ m' = some t := by
  cases m <;> simp [lock, eq_comm]

@[simp] theorem lock_eq_none {t : T} {m : Mutex T} : lock t m = none ↔ m ≠ none := by
  cases m <;> simp [lock]

/-- a step that locks: it has found the mutex free -/
theorem lock_step {α : Type} {t : T} {m : Mutex T} {f : Mutex T → α} {r : α} (h : (lock t m).map f = some r) :
    m = none ∧ f (some t) = r := by
  obtain ⟨m', hm, hf⟩ := Option.map_eq_some_iff.1 h
  obtain ⟨h1, rfl⟩ := lock_eq_some.1 hm
  exact ⟨h1, hf⟩

section Guards

variable {L : Type} {inside : L → Prop} {m m' : Mutex T} {loc : T → L} {t u : T} {l : L}

/-- the mutex is locked by the thread that is inside -/
def Guards (inside : L → Prop) (m : Mutex T) (loc : T → L) : Prop := ∀ t, m = some t ↔ inside (loc t)

theorem Guards.start (h : ∀ t, ¬ inside (loc t)) : Guards inside none loc :=
  fun t => ⟨fun hm => (by cases hm), fun ht => absurd ht (h t)⟩

theorem Guards.unique (h : Guards inside m loc) (ht : inside (loc t)) (hu : inside (loc u)) : t = u :=
  Option.some.inj (((h t).2 ht).symm.trans ((h u).2 hu))

theorem Guards.outside (h : Guards inside m loc) (ht : inside (loc t)) (hu : u ≠ t) : ¬ inside (loc u) :=
  fun h1 => hu (h.unique h1 ht)

theorem Guards.free (h : Guards inside none loc) (t : T) : ¬ inside (loc t) := fun ht => by cases (h t).2 ht

variable [DecidableEq T]

/-- a step inside or outside -/
theorem Guards.stay (h : Guards inside m loc) (hl : inside l ↔ inside (loc t)) :
    Guards inside m (Function.update loc t l) := by
  intro u
  by_cases hu : u = t
  · subst hu
    rw [Function.update_self, hl]
    exact h u
  · rw [Function.update_of_ne hu]
    exact h u

theorem Guards.enter (h : Guards inside none loc) (hl : inside l) :
    Guards inside (some t) (Function.update loc t l) := by
  intro u
  by_cases hu : u = t
  · subst hu
    rw [Function.update_self]
    exact ⟨fun _ => hl, fun _ => rfl⟩
  · rw [Function.update_of_ne hu]
    exact ⟨fun h1 => absurd (Option.some.inj h1).symm hu, fun h1 => absurd h1 (h.free u)⟩

theorem Guards.leave (h : Guards inside m loc) (ht : inside (loc t)) (hl : ¬ inside l) :
    Guards inside none (Function.update loc t l) := by
  intro u
  by_cases hu : u = t
  · subst hu
    rw [Function.update_self]
    exact ⟨fun h1 => (by cases h1), fun h1 => absurd h1 hl⟩
  · rw [Function.update_of_ne hu]
    exact ⟨fun h1 => (by cases h1), fun h1 => absurd h1 (h.outside ht hu)⟩

end Guards

variable [DecidableEq T]

/-- the threads asleep on the condition variable -/
abbrev Cond (T : Type) := Finset T

/-- `pthread_cond_signal`, which wakes the threads `w`: at least one if any is asleep -/
def signal (w : Finset T) (c : Cond T) : Option (Cond T) :=
  if w ⊆ c ∧ (c.Nonempty → w.Nonempty) then some (c \ w) else none

theorem signal_eq_some {w : Finset T} {c c' : Cond T} (h : signal w c = some c') :
    c' ⊆ c ∧ (c.Nonempty → c'.card < c.card) := by
  unfold signal at h
  split_ifs at h with hw
  cases h
  refine ⟨Finset.sdiff_subset, ?_⟩
  intro hc
  have h1 := Finset.card_sdiff_add_card_eq_card hw.1
  have h2 := Finset.card_pos.2 (hw.2 hc)
  omega

end OsPractice.Monitor

namespace OsPractice.Semaphore

/-- `sem_wait`: decrement, blocked (`none`) at zero -/
def semWait (v : ℕ) : Option ℕ := if 0 < v then some (v - 1) else none

/-- `sem_post`: increment -/
def semPost (v : ℕ) : ℕ := v + 1

@[simp] theorem semWait_eq_some {v v' : ℕ} : semWait v = some v' ↔ v = v' + 1 := by
  unfold semWait
  split_ifs with h
  · simp only [Option.some.injEq]; omega
  · simp only [false_iff]; omega

@[simp] theorem semWait_eq_none {v : ℕ} : semWait v = none ↔ v = 0 := by
  unfold semWait
  split_ifs with h
  · simp only [false_iff]; omega
  · simp only [true_iff]; omega

/-- a step that waits: it has found a positive value -/
theorem wait_step {α : Type} {v : ℕ} {f : ℕ → α} {r : α} (h : (semWait v).map f = some r) :
    ∃ v', v = v' + 1 ∧ f v' = r := by
  obtain ⟨v', hv, hf⟩ := Option.map_eq_some_iff.1 h
  exact ⟨v', semWait_eq_some.1 hv, hf⟩

@[simp] theorem semPost_eq (v : ℕ) : semPost v = v + 1 := rfl

end OsPractice.Semaphore
