/-
The plain reader/writer lock (`sema/reader-writer.c`): a reader count under the semaphore `lock`, and `writelock`, which
the first reader takes and the last reader posts.

Each `sem_wait`, each `sem_post` and each access to `rw->readers` is one step. The threads are those of an arbitrary
client (`LockClient.Client`): any number of threads, any matched acquire/release calls, any code in between.

`Inv` is the invariant. While `lock` is free, the token of `writelock` is at rest: in the semaphore, with a writer, or
with the group of readers (`token`). While a thread is inside the `lock` section, `Busy` says for its point where the
token is; the section moves the token between the semaphore and the group in two half-finished windows (between the test
of `readers` and the wait on `writelock`, and between the last decrement and the post).

Results:
- `exclusion`: a writer excludes every other holder, and the fields of the lock agree with the holders whenever `lock`
  is free;
- `no_deadlock`: a reachable state with an unfinished thread has a thread that can step.
-/
import OsPractice.Sema.RwImpl
import OsPractice.Core.Monitor

namespace OsPractice.ReaderWriter

open Interleave LockClient RwImpl Semaphore

/-! ## Model -/

structure Rwlock where
  lock : ℕ
  writelock : ℕ
  readers : ℤ
  deriving DecidableEq, Repr

def rwlockInit : Rwlock := { readers := 0, lock := 1, writelock := 1 }

inductive AcquireReadlock where
  | waitLock
  | loadReaders
  | storeReaders (tmp : ℤ)
  | testReaders
  | waitWritelock
  | postLock
  deriving DecidableEq, Repr

def rwlockAcquireReadlock (lk : Rwlock) : AcquireReadlock → Option (Rwlock × Option AcquireReadlock)
  | .waitLock => (semWait lk.lock).map fun v => ({ lk with lock := v }, some .loadReaders)
  | .loadReaders => some (lk, some (.storeReaders lk.readers))
  | .storeReaders tmp => some ({ lk with readers := tmp + 1 }, some .testReaders)
  | .testReaders => some (lk, some (if lk.readers = 1 then .waitWritelock else .postLock))
  | .waitWritelock => (semWait lk.writelock).map fun v => ({ lk with writelock := v }, some .postLock)
  | .postLock => some ({ lk with lock := semPost lk.lock }, none)

inductive ReleaseReadlock where
  | waitLock
  | loadReaders
  | storeReaders (tmp : ℤ)
  | testReaders
  | postWritelock
  | postLock
  deriving DecidableEq, Repr

def rwlockReleaseReadlock (lk : Rwlock) : ReleaseReadlock → Option (Rwlock × Option ReleaseReadlock)
  | .waitLock => (semWait lk.lock).map fun v => ({ lk with lock := v }, some .loadReaders)
  | .loadReaders => some (lk, some (.storeReaders lk.readers))
  | .storeReaders tmp => some ({ lk with readers := tmp - 1 }, some .testReaders)
  | .testReaders => some (lk, some (if lk.readers = 0 then .postWritelock else .postLock))
  | .postWritelock => some ({ lk with writelock := semPost lk.writelock }, some .postLock)
  | .postLock => some ({ lk with lock := semPost lk.lock }, none)

inductive AcquireWritelock where
  | waitWritelock
  deriving DecidableEq, Repr

def rwlockAcquireWritelock (lk : Rwlock) : AcquireWritelock → Option (Rwlock × Option AcquireWritelock)
  | .waitWritelock => (semWait lk.writelock).map fun v => ({ lk with writelock := v }, none)

inductive ReleaseWritelock where
  | postWritelock
  deriving DecidableEq, Repr

def rwlockReleaseWritelock (lk : Rwlock) : ReleaseWritelock → Option (Rwlock × Option ReleaseWritelock)
  | .postWritelock => some ({ lk with writelock := semPost lk.writelock }, none)

def rwlock : RwFunctions Rwlock AcquireReadlock ReleaseReadlock AcquireWritelock ReleaseWritelock where
  init := rwlockInit
  acquireReadlock := rwlockAcquireReadlock
  releaseReadlock := rwlockReleaseReadlock
  acquireWritelock := rwlockAcquireWritelock
  releaseWritelock := rwlockReleaseWritelock
  acquireReadlockEntry := .waitLock
  releaseReadlockEntry := .waitLock
  acquireWritelockEntry := .waitWritelock
  releaseWritelockEntry := .postWritelock

abbrev RwPhase :=
  Phase Mode (Acquire AcquireReadlock AcquireWritelock) (Release ReleaseReadlock ReleaseWritelock)

/-- the local state of a thread whose client has state `B` -/
abbrev RwLoc (B : Type) :=
  Loc Mode (Acquire AcquireReadlock AcquireWritelock) (Release ReleaseReadlock ReleaseWritelock) B

/-! ## Who is where -/

/-- inside the section between `sem_wait(&rw->lock)` and `sem_post(&rw->lock)` -/
def inSection : RwPhase → ℕ
  | .acquiring (.read .waitLock) => 0
  | .acquiring (.read _) => 1
  | .releasing (.read .waitLock) => 0
  | .releasing (.read _) => 1
  | _ => 0

/-- counted in `rw->readers`: incremented and not yet decremented -/
def counted : RwPhase → ℕ
  | .acquiring (.read .testReaders) => 1
  | .acquiring (.read .waitWritelock) => 1
  | .acquiring (.read .postLock) => 1
  | .holding .read => 1
  | .releasing (.read .waitLock) => 1
  | .releasing (.read .loadReaders) => 1
  | .releasing (.read (.storeReaders _)) => 1
  | _ => 0

/-- holds the write lock, up to the post of `writelock` -/
def writing : RwPhase → ℕ
  | .holding .write => 1
  | .releasing (.write _) => 1
  | _ => 0

/-- holds the read lock, up to the first step of the release -/
def reading : RwPhase → ℕ
  | .holding .read => 1
  | .releasing (.read .waitLock) => 1
  | _ => 0

/-- 1 when the group of readers has the token of `writelock` -/
def token (readers : ℤ) : ℕ := if 0 < readers then 1 else 0

theorem token_of_pos {r : ℤ} (h : 0 < r) : token r = 1 := if_pos h

theorem token_cases (r : ℤ) : 0 < r ∧ token r = 1 ∨ r ≤ 0 ∧ token r = 0 := by
  unfold token
  split_ifs <;> omega

/-! ## The invariant -/

/-- the token and the register of a thread inside the section, `W` being the number of writers -/
def Busy (lk : Rwlock) (W : ℕ) : RwPhase → Prop
  | .acquiring (.read .loadReaders) => lk.writelock + W + token lk.readers = 1
  | .acquiring (.read (.storeReaders tmp)) => tmp = lk.readers ∧ lk.writelock + W + token lk.readers = 1
  | .acquiring (.read .testReaders) => lk.writelock + W + token (lk.readers - 1) = 1
  | .acquiring (.read .waitWritelock) => lk.readers = 1 ∧ lk.writelock + W = 1
  | .acquiring (.read .postLock) => lk.writelock + W + token lk.readers = 1
  | .releasing (.read .loadReaders) => lk.writelock + W + token lk.readers = 1
  | .releasing (.read (.storeReaders tmp)) => tmp = lk.readers ∧ lk.writelock + W + token lk.readers = 1
  | .releasing (.read .testReaders) => lk.writelock + W = 0
  | .releasing (.read .postWritelock) => lk.readers = 0 ∧ lk.writelock + W = 0
  | .releasing (.read .postLock) => lk.writelock + W + token lk.readers = 1
  | _ => True

/-- outside the section `Busy` says nothing; the token depends on the sum of `writelock` and the writers only -/
theorem busy_congr {lk lk' : Rwlock} {W W' : ℕ} {φ : RwPhase} (h : Busy lk W φ) (hr : lk'.readers = lk.readers)
    (hw : lk'.writelock + W' = lk.writelock + W) : Busy lk' W' φ := by
  unfold Busy at h ⊢
  split at h <;> simp_all

theorem busy_of_outside {lk : Rwlock} {W : ℕ} {φ : RwPhase} (h : inSection φ = 0) : Busy lk W φ := by
  unfold Busy
  split <;> simp_all [inSection]

/-- outside the section a reader is only at its first step -/
theorem acquiring_outside {p : AcquireReadlock} (h : inSection (.acquiring (.read p)) = 0) : p = .waitLock := by
  cases p with
  | waitLock => rfl
  | _ => cases h

theorem releasing_outside {p : ReleaseReadlock} (h : inSection (.releasing (.read p)) = 0) : p = .waitLock := by
  cases p with
  | waitLock => rfl
  | _ => cases h

theorem counted_eq_reading {φ : RwPhase} (h : inSection φ = 0) : counted φ = reading φ := by
  cases φ with
  | out => rfl
  | acquiring p =>
    cases p with
    | read p =>
      obtain rfl := acquiring_outside h
      rfl
    | write p => rfl
  | holding m => cases m <;> rfl
  | releasing p =>
    cases p with
    | read p =>
      obtain rfl := releasing_outside h
      rfl
    | write p => rfl

theorem inSection_of_reading {φ : RwPhase} (h : reading φ = 1) : inSection φ = 0 := by
  unfold reading at h
  split at h <;> simp_all [inSection]

theorem reading_le (φ : RwPhase) : reading φ ≤ 1 := by
  unfold reading
  split <;> omega

theorem writing_le (φ : RwPhase) : writing φ ≤ 1 := by
  unfold writing
  split <;> omega

theorem inSection_cases {φ : RwPhase} (h : inSection φ = 1) :
    (∃ p, φ = .acquiring (.read p)) ∨ ∃ p, φ = .releasing (.read p) := by
  unfold inSection at h
  split at h
  · cases h
  · exact .inl ⟨_, rfl⟩
  · cases h
  · exact .inr ⟨_, rfl⟩
  · cases h

theorem inSection_le (φ : RwPhase) : inSection φ ≤ 1 := by
  unfold inSection
  split <;> omega

variable {T : Type} [Fintype T]

structure Inv (lk : Rwlock) (ph : T → RwPhase) : Prop where
  mutex : lk.lock + total inSection ph = 1
  readers : lk.readers = total counted ph
  free : lk.lock = 1 → lk.writelock + total writing ph + token lk.readers = 1
  busy : ∀ t, Busy lk (total writing ph) (ph t)

theorem outside_of_free {lk : Rwlock} {ph : T → RwPhase} (h : Inv lk ph) (hl : lk.lock = 1) (t : T) :
    inSection (ph t) = 0 := by
  have hm := h.mutex
  have hle := le_total inSection ph t
  omega

theorem exists_inSection {lk : Rwlock} {ph : T → RwPhase} (h : Inv lk ph) (hl : lk.lock ≠ 1) :
    ∃ t, inSection (ph t) = 1 := by
  have hm := h.mutex
  obtain ⟨t, ht⟩ := exists_of_total_pos inSection ph (by omega)
  have hle := inSection_le (ph t)
  exact ⟨t, by omega⟩

theorem inv_init : Inv rwlockInit fun _ : T => Phase.out := by
  refine ⟨?_, ?_, fun _ => ?_, fun _ => trivial⟩ <;>
    simp [total_const, inSection, counted, writing, token, rwlockInit]

/-- what one step does to the fields and to the thread that makes it, `W` and `W'` being the writers before and after -/
structure Effect (lk : Rwlock) (W : ℕ) (φ : RwPhase) (lk' : Rwlock) (W' : ℕ) (φ' : RwPhase) : Prop where
  lock : lk'.lock + inSection φ' = lk.lock + inSection φ
  readers : lk'.readers + counted φ = lk.readers + counted φ'
  busy : Busy lk' W' φ'
  /-- a thread that stays outside the section only moves the token between the semaphore and the writers -/
  outside : inSection φ = 0 → inSection φ' = 0 →
    lk'.readers = lk.readers ∧ lk'.writelock + W' = lk.writelock + W
  leave : inSection φ = 1 → inSection φ' = 0 → lk'.writelock + W' + token lk'.readers = 1

section Effect

variable {lk lk' : Rwlock} {W W' : ℕ} {φ φ' : RwPhase}

/-- a step from outside the section into it -/
theorem Effect.enter (hφ : inSection φ = 0) (hφ' : inSection φ' = 1) (hl : lk.lock = lk'.lock + 1)
    (hr : lk'.readers + counted φ = lk.readers + counted φ') (hb : Busy lk' W' φ') : Effect lk W φ lk' W' φ' :=
  ⟨by omega, hr, hb, fun _ h => by omega, fun _ h => by omega⟩

/-- a step inside the section -/
theorem Effect.inside (hφ : inSection φ = 1) (hφ' : inSection φ' = 1) (hl : lk'.lock = lk.lock)
    (hr : lk'.readers + counted φ = lk.readers + counted φ') (hb : Busy lk' W' φ') : Effect lk W φ lk' W' φ' :=
  ⟨by omega, hr, hb, fun h => by omega, fun _ h => by omega⟩

/-- a step out of the section -/
theorem Effect.exit (hφ : inSection φ = 1) (hφ' : inSection φ' = 0) (hl : lk'.lock = lk.lock + 1)
    (hr : lk'.readers + counted φ = lk.readers + counted φ') (hw : lk'.writelock + W' + token lk'.readers = 1) :
    Effect lk W φ lk' W' φ' :=
  ⟨by omega, hr, busy_of_outside hφ', fun h => by omega, fun _ _ => hw⟩

/-- a step outside the section -/
theorem Effect.stay (hφ : inSection φ = 0) (hφ' : inSection φ' = 0) (hl : lk'.lock = lk.lock)
    (hc : counted φ' = counted φ) (hr : lk'.readers = lk.readers) (hw : lk'.writelock + W' = lk.writelock + W) :
    Effect lk W φ lk' W' φ' :=
  ⟨by omega, by omega, busy_of_outside hφ', fun _ _ => ⟨hr, hw⟩, fun h => by omega⟩

end Effect

theorem acquireReadlock_effect {lk lk' : Rwlock} {W : ℕ} {p : AcquireReadlock} {q : Option AcquireReadlock}
    (h : rwlockAcquireReadlock lk p = some (lk', q)) (hb : Busy lk W (.acquiring (.read p)))
    (hfree : 0 < lk.lock → lk.writelock + W + token lk.readers = 1)
    (hc : (counted (.acquiring (.read p)) : ℤ) ≤ lk.readers) :
    Effect lk W (.acquiring (.read p)) lk' W (acquireNext .read .read q) := by
  cases p with
  | waitLock =>
    obtain ⟨v, hv, he⟩ := wait_step h
    cases he
    exact .enter rfl rfl hv rfl (hfree (by omega))
  | loadReaders =>
    cases h
    exact .inside rfl rfl rfl rfl ⟨rfl, hb⟩
  | storeReaders tmp =>
    cases h
    obtain ⟨rfl, hb⟩ := hb
    refine .inside rfl rfl rfl (by simp [counted, acquireNext]) ?_
    simpa [Busy, acquireNext] using hb
  | testReaders =>
    cases h
    simp only [Busy] at hb
    simp only [counted] at hc
    split_ifs with h1
    · -- the first reader: the token has to be fetched from the semaphore
      rw [h1] at hb
      exact .inside rfl rfl rfl rfl ⟨h1, hb⟩
    · have h2 : token lk.readers = token (lk.readers - 1) := by
        rw [token_of_pos (by omega), token_of_pos (by omega)]
      exact .inside rfl rfl rfl rfl (by simpa [Busy, acquireNext, h2] using hb)
  | waitWritelock =>
    obtain ⟨v, hv, he⟩ := wait_step h
    cases he
    obtain ⟨h1, hb⟩ := hb
    refine .inside rfl rfl rfl rfl ?_
    simp only [Busy, acquireNext, h1, token_of_pos one_pos]
    omega
  | postLock =>
    cases h
    exact .exit rfl rfl rfl rfl hb

theorem releaseReadlock_effect {lk lk' : Rwlock} {W : ℕ} {p : ReleaseReadlock} {q : Option ReleaseReadlock}
    (h : rwlockReleaseReadlock lk p = some (lk', q)) (hb : Busy lk W (.releasing (.read p)))
    (hfree : 0 < lk.lock → lk.writelock + W + token lk.readers = 1)
    (hc : (counted (.releasing (.read p)) : ℤ) ≤ lk.readers) (h0 : 0 ≤ lk.readers) :
    Effect lk W (.releasing (.read p)) lk' W (releaseNext .read q) := by
  cases p with
  | waitLock =>
    obtain ⟨v, hv, he⟩ := wait_step h
    cases he
    exact .enter rfl rfl hv rfl (hfree (by omega))
  | loadReaders =>
    cases h
    exact .inside rfl rfl rfl rfl ⟨rfl, hb⟩
  | storeReaders tmp =>
    cases h
    obtain ⟨rfl, hb⟩ := hb
    simp only [counted] at hc
    have h1 : token lk.readers = 1 := token_of_pos (by omega)
    refine .inside rfl rfl rfl (by simp [counted, releaseNext]) ?_
    simpa [Busy, releaseNext, h1] using hb
  | testReaders =>
    cases h
    simp only [Busy] at hb
    split_ifs with h1
    · exact .inside rfl rfl rfl rfl ⟨h1, hb⟩
    · -- other readers remain: they keep the token
      have h2 : token lk.readers = 1 := token_of_pos (by omega)
      exact .inside rfl rfl rfl rfl (by simp [Busy, releaseNext, h2, hb])
  | postWritelock =>
    cases h
    obtain ⟨h1, hb⟩ := hb
    refine .inside rfl rfl rfl rfl ?_
    simp [Busy, releaseNext, token, h1]
    omega
  | postLock =>
    cases h
    exact .exit rfl rfl rfl rfl hb

theorem step_effect {lk lk' : Rwlock} {W W' : ℕ} {φ φ' : RwPhase} (hs : RwStep rwlock lk φ lk' φ') (hb : Busy lk W φ)
    (hfree : 0 < lk.lock → lk.writelock + W + token lk.readers = 1) (hc : (counted φ : ℤ) ≤ lk.readers)
    (hW : W' + writing φ = W + writing φ') : Effect lk W φ lk' W' φ' := by
  have h0 : 0 ≤ lk.readers := by omega
  cases hs with
  | call m =>
    obtain rfl : W' = W := by cases m <;> exact hW
    cases m <;> exact .stay rfl rfl rfl rfl rfl rfl
  | release m =>
    obtain rfl : W' = W := by cases m <;> exact Nat.add_right_cancel hW
    cases m <;> exact .stay rfl rfl rfl rfl rfl rfl
  | acquireRead h =>
    rename_i p q
    have hw : writing (.acquiring (.read p)) = 0 ∧ writing (acquireNext .read .read q) = 0 := by
      cases q <;> exact ⟨rfl, rfl⟩
    obtain rfl : W' = W := by omega
    exact acquireReadlock_effect h hb hfree hc
  | releaseRead h =>
    rename_i p q
    have hw : writing (.releasing (.read p)) = 0 ∧ writing (releaseNext .read q) = 0 := by
      cases q <;> exact ⟨rfl, rfl⟩
    obtain rfl : W' = W := by omega
    exact releaseReadlock_effect h hb hfree hc h0
  | acquireWrite h =>
    rename_i p q
    cases p
    obtain ⟨v, hv, he⟩ := wait_step h
    cases he
    simp only [writing, acquireNext] at hW
    exact .stay rfl rfl rfl rfl rfl (by simp only; omega)
  | releaseWrite h =>
    rename_i p q
    cases p
    cases h
    simp only [writing, releaseNext] at hW
    exact .stay rfl rfl rfl rfl rfl (by simp only [semPost]; omega)

variable [DecidableEq T]

theorem inv_step {lk lk' : Rwlock} {ph : T → RwPhase} {t : T} {φ : RwPhase} (h : Inv lk ph)
    (hs : RwStep rwlock lk (ph t) lk' φ) : Inv lk' (Function.update ph t φ) := by
  have hS := total_update inSection ph t φ
  have hC := total_update counted ph t φ
  have hW := total_update writing ph t φ
  have hm := h.mutex
  have hr := h.readers
  have hle := le_total inSection ph t
  have hcle := le_total counted ph t
  have e := step_effect hs (h.busy t) (fun hl => h.free (by omega)) (by omega) hW
  have he := e.lock
  have hle' := inSection_le φ
  refine ⟨by omega, by have := e.readers; omega, ?_, ?_⟩
  · intro hl
    rcases Nat.eq_zero_or_pos (inSection (ph t)) with h1 | h1
    · obtain ⟨h2, h3⟩ := e.outside h1 (by omega)
      rw [h2, h3]
      exact h.free (by omega)
    · exact e.leave (by omega) (by omega)
  · intro u
    by_cases hu : u = t
    · subst hu
      simpa using e.busy
    · rw [Function.update_of_ne hu]
      have h2 := add_le_total inSection ph hu
      by_cases h1 : inSection (ph u) = 0
      · exact busy_of_outside h1
      · -- another thread is inside the section, so this step happens outside it
        obtain ⟨h3, h4⟩ := e.outside (by omega) (by omega)
        exact busy_congr (h.busy u) h3 h4

/-- a run from a state with the invariant keeps it -/
theorem inv_of_run {D B X : Type} {K : Client Mode D B X} {as : List (T × Unit)} {tr : List (Event T Mode X)}
    {s s' : St T (Shared Rwlock D) (RwLoc B)} (h : Run (prog rwlock.impl K) s as tr s')
    (hi : Inv s.sh.lock (phases s)) : Inv s'.sh.lock (phases s') :=
  h.inv (I := fun s => Inv s.sh.lock (phases s)) hi fun _ _ _ _ _ _ hi hs =>
    step_lock_inv (fun _ _ _ _ _ hi hs => inv_step hi (rw_step hs)) hi hs

theorem run_inv {D B X : Type} {K : Client Mode D B X} {d : D} {b : T → B} {as : List (T × Unit)}
    {tr : List (Event T Mode X)} {s : St T (Shared Rwlock D) (RwLoc B)}
    (h : Run (prog rwlock.impl K) (start rwlock.impl d b) as tr s) : Inv s.sh.lock (phases s) :=
  inv_of_run h inv_init

/-! ## Exclusion -/

/-- a thread inside the section bounds the number of writers; a reader that is counted besides it bounds it to zero -/
theorem busy_writers {lk : Rwlock} {W : ℕ} {φ : RwPhase} (hb : Busy lk W φ) (hi : inSection φ = 1) :
    W ≤ 1 ∧ ((counted φ : ℤ) < lk.readers → W = 0) := by
  have h1 := token_cases lk.readers
  have h2 := token_cases (lk.readers - 1)
  rcases inSection_cases hi with ⟨p, rfl⟩ | ⟨p, rfl⟩
  · cases p with
    | waitLock => simp [inSection] at hi
    | _ => simp only [Busy, counted, Nat.cast_one, Nat.cast_zero] at hb ⊢; omega
  · cases p with
    | waitLock => simp [inSection] at hi
    | _ => simp only [Busy, counted, Nat.cast_one, Nat.cast_zero] at hb ⊢; omega

/-- while there is a writer, a releasing thread inside the section has been the last reader -/
theorem readers_of_busy {lk : Rwlock} {W : ℕ} {p : ReleaseReadlock} (hb : Busy lk W (.releasing (.read p)))
    (hi : inSection (.releasing (.read p)) = 1) (hW : 1 ≤ W) : lk.readers ≤ 0 := by
  have h1 := token_cases lk.readers
  cases p with
  | waitLock => cases hi
  | _ => simp only [Busy] at hb; omega

omit [DecidableEq T] in
theorem writers_le_one {lk : Rwlock} {ph : T → RwPhase} (h : Inv lk ph) : total writing ph ≤ 1 := by
  by_cases hl : lk.lock = 1
  · have := h.free hl
    omega
  · obtain ⟨t, ht⟩ := exists_inSection h hl
    exact (busy_writers (h.busy t) ht).1

/-- while a thread holds the read lock there is no writer -/
theorem no_writer_of_reading {lk : Rwlock} {ph : T → RwPhase} (h : Inv lk ph) {u : T} (hu : reading (ph u) = 1) :
    total writing ph = 0 := by
  have hiu := inSection_of_reading hu
  have hcu := counted_eq_reading hiu
  have hr := h.readers
  by_cases hl : lk.lock = 1
  · have hle := le_total counted ph u
    have := h.free hl
    rw [token_of_pos (by omega)] at this
    omega
  · obtain ⟨t, ht⟩ := exists_inSection h hl
    have hne : u ≠ t := by
      rintro rfl
      omega
    have := add_le_total counted ph hne
    exact (busy_writers (h.busy t) ht).2 (by omega)

/-- **Exclusion.** In every state of every run a writer excludes every other holder. Whenever the semaphore `lock` is
free, `readers` is the number of threads that hold the read lock, and `writelock` is 0 exactly when there are readers or
a writer. -/
theorem exclusion {D B X : Type} (K : Client Mode D B X) (d : D) (b : T → B) {as : List (T × Unit)}
    {tr : List (Event T Mode X)} {s : St T (Shared Rwlock D) (RwLoc B)}
    (h : Run (prog rwlock.impl K) (start rwlock.impl d b) as tr s) :
    (∀ t u, t ≠ u → writing (phases s t) = 1 → writing (phases s u) = 0 ∧ reading (phases s u) = 0) ∧
    (s.sh.lock.lock = 1 →
      s.sh.lock.readers = total reading (phases s) ∧
      (s.sh.lock.writelock = 0 ↔ 0 < s.sh.lock.readers ∨ ∃ t, writing (phases s t) = 1)) := by
  have hi := run_inv h
  constructor
  · intro t u hne ht
    have h1 := writers_le_one hi
    have h2 := add_le_total writing (phases s) hne
    refine ⟨by omega, ?_⟩
    by_contra hu
    have h3 := reading_le (phases s u)
    have h4 := no_writer_of_reading hi (u := u) (by omega)
    have h5 := le_total writing (phases s) t
    omega
  · intro hl
    have hc : total counted (phases s) = total reading (phases s) :=
      total_congr fun t => counted_eq_reading (outside_of_free hi hl t)
    have hf := hi.free hl
    have htok := token_cases s.sh.lock.readers
    refine ⟨by rw [← hc]; exact hi.readers, ?_, ?_⟩
    · intro h0
      by_cases hr : 0 < s.sh.lock.readers
      · exact .inl hr
      · obtain ⟨t, ht⟩ := exists_of_total_pos writing (phases s) (by omega)
        have := writing_le (phases s t)
        exact .inr ⟨t, by omega⟩
    · rintro (hr | ⟨t, ht⟩)
      · omega
      · have := le_total writing (phases s) t
        omega

/-- a writer that holds while a reader has called -/
theorem exclusion_two :
    ∃ as tr s, Run (prog rwlock.impl (callList Mode))
      (start rwlock.impl () fun t : Fin 2 => if t = 0 then [.write] else [.read]) as tr s ∧
      writing (phases s 0) = 1 ∧ s.sh.lock.lock = 1 ∧ reading (phases s 1) = 0 ∧ s.sh.lock.readers = 0 ∧
      s.sh.lock.writelock = 0 := by
  obtain ⟨s, tr, h, hw, hl, hr⟩ := exec_any_run (prog rwlock.impl (callList Mode))
    (start rwlock.impl () fun t : Fin 2 => if t = 0 then [.write] else [.read]) ([0, 0, 1].map fun t => (t, ()))
    (fun s _ => writing (phases s 0) = 1 ∧ s.sh.lock.lock = 1 ∧ total reading (phases s) = 0) (by decide +kernel)
  obtain ⟨h1, h2⟩ := exclusion (callList Mode) _ _ h
  obtain ⟨h3, h4⟩ := h2 hl
  exact ⟨_, tr, s, h, hw, hl, (h1 0 1 (by decide) hw).2, by rw [h3, hr]; rfl, h4.2 (.inr ⟨0, hw⟩)⟩

/-- a writer excludes every other holder -/
theorem plain_excludes : Excludes rwlock := by
  intro T _ _ D B X K d b as tr s h t u hne ht m hu
  have hi := run_inv h
  have h1 : writing (phases s t) = 1 := by rcases ht with ht | ⟨p, ht⟩ <;> rw [ht] <;> rfl
  have hW := writers_le_one hi
  cases m with
  | write =>
    have h2 : writing (phases s u) = 1 := by rw [hu]; rfl
    exact hne (eq_of_total_le_one hW (by omega) (by omega))
  | read =>
    have h2 := no_writer_of_reading hi (u := u) (by rw [hu]; rfl)
    have h3 := le_total writing (phases s) t
    omega

/-! ## Progress -/

theorem counted_cases {φ : RwPhase} (h : 0 < counted φ) :
    inSection φ = 1 ∨ φ = .holding .read ∨ φ = .releasing (.read .waitLock) := by
  by_cases h0 : inSection φ = 0
  · rw [counted_eq_reading h0] at h
    unfold reading at h
    split at h
    · exact .inr (.inl rfl)
    · exact .inr (.inr rfl)
    · omega
  · have := inSection_le φ
    exact .inl (by omega)

theorem writing_cases {φ : RwPhase} (h : 0 < writing φ) :
    φ = .holding .write ∨ φ = .releasing (.write .postWritelock) := by
  unfold writing at h
  split at h
  · exact .inl rfl
  · rename_i p
    cases p
    exact .inr rfl
  · omega

section Progress

variable {D B X : Type} {K : Client Mode D B X} {s : St T (Shared Rwlock D) (RwLoc B)} {t : T}

omit [Fintype T] [DecidableEq T]

theorem canStep_of_writing (h : 0 < writing (phases s t)) : CanStep (prog rwlock.impl K) s t := by
  rcases writing_cases h with h | h
  · exact canStep_of_holding h
  · exact canStep_of_releasing h (c := ()) rfl

/-- inside the section a thread is blocked only at the wait on `writelock` -/
theorem canStep_of_inSection (h : inSection (phases s t) = 1)
    (hw : phases s t = .acquiring (.read .waitWritelock) → s.sh.lock.writelock ≠ 0) :
    CanStep (prog rwlock.impl K) s t := by
  rcases inSection_cases h with ⟨p, hp⟩ | ⟨p, hp⟩
  · refine canStep_of_acquiring hp (c := ()) ?_
    rw [hp] at h hw
    cases p with
    | waitLock => cases h
    | waitWritelock =>
      have : semWait s.sh.lock.writelock ≠ none := fun hn => hw rfl (semWait_eq_none.1 hn)
      simpa [rwlock, RwFunctions.impl, rwlockAcquireReadlock] using Option.isSome_iff_ne_none.2 this
    | _ => rfl
  · refine canStep_of_releasing hp (c := ()) ?_
    rw [hp] at h
    cases p with
    | waitLock => cases h
    | _ => rfl

end Progress

/-- **No deadlock.** In every state of every run, if a thread has not finished then some thread can step. -/
theorem no_deadlock {D B X : Type} (K : Client Mode D B X) (d : D) (b : T → B) {as : List (T × Unit)}
    {tr : List (Event T Mode X)} {s : St T (Shared Rwlock D) (RwLoc B)}
    (h : Run (prog rwlock.impl K) (start rwlock.impl d b) as tr s) (hf : ∃ t, ¬ Finished K s t) :
    ∃ t, CanStep (prog rwlock.impl K) s t := by
  have hi := run_inv h
  by_contra hno
  push Not at hno
  have hW : total writing (phases s) = 0 := total_eq_zero fun t => by
    by_contra hc
    exact hno t (canStep_of_writing (by omega))
  -- nobody is inside the section: the only point that blocks there waits for a writer, and there is none
  have hl : s.sh.lock.lock = 1 := by
    by_contra hl
    obtain ⟨t, ht⟩ := exists_inSection hi hl
    refine hno t (canStep_of_inSection ht ?_)
    intro hp
    have hb := hi.busy t
    rw [hp, hW] at hb
    simp only [Busy] at hb
    omega
  have hfree := hi.free hl
  have hr : s.sh.lock.readers ≤ 0 := by
    by_contra hr
    obtain ⟨t, ht⟩ := exists_of_total_pos counted (phases s) (by have := hi.readers; omega)
    rcases counted_cases ht with h1 | h1 | h1
    · have := outside_of_free hi hl t
      omega
    · exact hno t (canStep_of_holding h1)
    · exact hno t (canStep_of_releasing h1 (c := ())
        (by simp [rwlock, RwFunctions.impl, rwlockReleaseReadlock, semWait, hl]))
  have htok := token_cases s.sh.lock.readers
  obtain ⟨t, ht⟩ := hf
  cases hp : phases s t with
  | out => exact hno t (canStep_of_out hp ht)
  | holding m => exact hno t (canStep_of_holding hp)
  | acquiring p =>
    have h1 := outside_of_free hi hl t
    refine hno t (canStep_of_acquiring hp (c := ()) ?_)
    cases p with
    | read p =>
      rw [hp] at h1
      obtain rfl := acquiring_outside h1
      simp [rwlock, RwFunctions.impl, rwlockAcquireReadlock, semWait, hl]
    | write p =>
      cases p
      have : 0 < s.sh.lock.writelock := by omega
      simp [rwlock, RwFunctions.impl, rwlockAcquireWritelock, semWait, this]
  | releasing p =>
    have h1 := outside_of_free hi hl t
    refine hno t (canStep_of_releasing hp (c := ()) ?_)
    cases p with
    | read p =>
      rw [hp] at h1
      obtain rfl := releasing_outside h1
      simp [rwlock, RwFunctions.impl, rwlockReleaseReadlock, semWait, hl]
    | write p => cases p; rfl

end OsPractice.ReaderWriter
