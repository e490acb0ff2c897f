/-
The reader/writer lock without starvation of writers (`sema/reader-writer-nostarve.c`): every acquire first waits on
`fair_lock`, which a writer keeps until it has released.

The inner protocol on `readlock`, `writelock` and `readers` is that of the plain lock: `plainLock` and `plainPhase`
forget `fair_lock`, and every step is a step of the plain lock or changes nothing there (`project_step`). So the
invariant is the plain one on the projection, plus the ownership of `fair_lock` (`Inv`).

Results:
- `nostarve_exclusion`: a writer, up to its last post, excludes every other holder;
- `no_overtaking`: while a writer that has passed `fair_lock` waits for `writelock`, nobody acquires, the readers only
  leave, and the wait is blocked only by a reader that holds or is releasing;
- `nostarve_no_deadlock`.
-/
import OsPractice.Sema.ReaderWriter

namespace OsPractice.ReaderWriterNostarve

open Interleave LockClient RwImpl Semaphore

/-! ## Model -/

structure Rwlock where
  fairLock : ℕ
  lock : ℕ
  writelock : ℕ
  readlock : ℕ
  readers : ℤ
  deriving DecidableEq, Repr

def rwlockInit : Rwlock := { readers := 0, lock := 1, writelock := 1, readlock := 1, fairLock := 1 }

inductive AcquireReadlock where
  | waitFair
  | waitReadlock
  | loadReaders
  | storeReaders (tmp : ℤ)
  | testReaders
  | waitWritelock
  | postReadlock
  | postFair
  deriving DecidableEq, Repr

def rwlockAcquireReadlock (lk : Rwlock) : AcquireReadlock → Option (Rwlock × Option AcquireReadlock)
  | .waitFair => (semWait lk.fairLock).map fun v => ({ lk with fairLock := v }, some .waitReadlock)
  | .waitReadlock => (semWait lk.readlock).map fun v => ({ lk with readlock := v }, some .loadReaders)
  | .loadReaders => some (lk, some (.storeReaders lk.readers))
  | .storeReaders tmp => some ({ lk with readers := tmp + 1 }, some .testReaders)
  | .testReaders => some (lk, some (if lk.readers = 1 then .waitWritelock else .postReadlock))
  | .waitWritelock => (semWait lk.writelock).map fun v => ({ lk with writelock := v }, some .postReadlock)
  | .postReadlock => some ({ lk with readlock := semPost lk.readlock }, some .postFair)
  | .postFair => some ({ lk with fairLock := semPost lk.fairLock }, none)

inductive ReleaseReadlock where
  | waitReadlock
  | loadReaders
  | storeReaders (tmp : ℤ)
  | testReaders
  | postWritelock
  | postReadlock
  deriving DecidableEq, Repr

def rwlockReleaseReadlock (lk : Rwlock) : ReleaseReadlock → Option (Rwlock × Option ReleaseReadlock)
  | .waitReadlock => (semWait lk.readlock).map fun v => ({ lk with readlock := v }, some .loadReaders)
  | .loadReaders => some (lk, some (.storeReaders lk.readers))
  | .storeReaders tmp => some ({ lk with readers := tmp - 1 }, some .testReaders)
  | .testReaders => some (lk, some (if lk.readers = 0 then .postWritelock else .postReadlock))
  | .postWritelock => some ({ lk with writelock := semPost lk.writelock }, some .postReadlock)
  | .postReadlock => some ({ lk with readlock := semPost lk.readlock }, none)

inductive AcquireWritelock where
  | waitFair
  | waitWritelock
  deriving DecidableEq, Repr

def rwlockAcquireWritelock (lk : Rwlock) : AcquireWritelock → Option (Rwlock × Option AcquireWritelock)
  | .waitFair => (semWait lk.fairLock).map fun v => ({ lk with fairLock := v }, some .waitWritelock)
  | .waitWritelock => (semWait lk.writelock).map fun v => ({ lk with writelock := v }, none)

inductive ReleaseWritelock where
  | postWritelock
  | postFair
  deriving DecidableEq, Repr

def rwlockReleaseWritelock (lk : Rwlock) : ReleaseWritelock → Option (Rwlock × Option ReleaseWritelock)
  | .postWritelock => some ({ lk with writelock := semPost lk.writelock }, some .postFair)
  | .postFair => some ({ lk with fairLock := semPost lk.fairLock }, none)

def rwlock : RwFunctions Rwlock AcquireReadlock ReleaseReadlock AcquireWritelock ReleaseWritelock where
  init := rwlockInit
  acquireReadlock := rwlockAcquireReadlock
  releaseReadlock := rwlockReleaseReadlock
  acquireWritelock := rwlockAcquireWritelock
  releaseWritelock := rwlockReleaseWritelock
  acquireReadlockEntry := .waitFair
  releaseReadlockEntry := .waitReadlock
  acquireWritelockEntry := .waitFair
  releaseWritelockEntry := .postWritelock

abbrev RwPhase :=
  Phase Mode (Acquire AcquireReadlock AcquireWritelock) (Release ReleaseReadlock ReleaseWritelock)

abbrev RwLoc (B : Type) :=
  Loc Mode (Acquire AcquireReadlock AcquireWritelock) (Release ReleaseReadlock ReleaseWritelock) B

/-! ## The plain lock inside -/

def plainLock (lk : Rwlock) : ReaderWriter.Rwlock := ⟨lk.readlock, lk.writelock, lk.readers⟩

def plainAcquire : AcquireReadlock → ReaderWriter.RwPhase
  | .waitFair => .acquiring (.read .waitLock)
  | .waitReadlock => .acquiring (.read .waitLock)
  | .loadReaders => .acquiring (.read .loadReaders)
  | .storeReaders tmp => .acquiring (.read (.storeReaders tmp))
  | .testReaders => .acquiring (.read .testReaders)
  | .waitWritelock => .acquiring (.read .waitWritelock)
  | .postReadlock => .acquiring (.read .postLock)
  | .postFair => .holding .read

def plainRelease : ReleaseReadlock → ReaderWriter.ReleaseReadlock
  | .waitReadlock => .waitLock
  | .loadReaders => .loadReaders
  | .storeReaders tmp => .storeReaders tmp
  | .testReaders => .testReaders
  | .postWritelock => .postWritelock
  | .postReadlock => .postLock

/-- the phase without `fair_lock`: before the inner protocol a call has only been made, after it the call is over -/
def plainPhase : RwPhase → ReaderWriter.RwPhase
  | .out => .out
  | .acquiring (.read p) => plainAcquire p
  | .acquiring (.write _) => .acquiring (.write .waitWritelock)
  | .holding m => .holding m
  | .releasing (.read p) => .releasing (.read (plainRelease p))
  | .releasing (.write .postWritelock) => .releasing (.write .postWritelock)
  | .releasing (.write .postFair) => .out

/-- owns `fair_lock` -/
def hasFair : RwPhase → ℕ
  | .acquiring (.read .waitFair) => 0
  | .acquiring (.read _) => 1
  | .acquiring (.write .waitFair) => 0
  | .acquiring (.write .waitWritelock) => 1
  | .holding .write => 1
  | .releasing (.write _) => 1
  | _ => 0

/-- the step of the plain lock that a step projects to -/
def PlainStep (lk : Rwlock) (φ : RwPhase) (lk' : Rwlock) (φ' : RwPhase) : Prop :=
  RwStep ReaderWriter.rwlock (plainLock lk) (plainPhase φ) (plainLock lk') (plainPhase φ')

theorem plain_acquireRead {lk lk' : Rwlock} {φ φ' : RwPhase} (p : ReaderWriter.AcquireReadlock)
    (q : Option ReaderWriter.AcquireReadlock)
    (h : ReaderWriter.rwlockAcquireReadlock (plainLock lk) p = some (plainLock lk', q))
    (hφ : plainPhase φ = .acquiring (.read p)) (hφ' : plainPhase φ' = acquireNext .read .read q) :
    PlainStep lk φ lk' φ' := by
  rw [PlainStep, hφ, hφ']
  exact .acquireRead h

theorem plain_releaseRead {lk lk' : Rwlock} {φ φ' : RwPhase} (p : ReaderWriter.ReleaseReadlock)
    (q : Option ReaderWriter.ReleaseReadlock)
    (h : ReaderWriter.rwlockReleaseReadlock (plainLock lk) p = some (plainLock lk', q))
    (hφ : plainPhase φ = .releasing (.read p)) (hφ' : plainPhase φ' = releaseNext .read q) :
    PlainStep lk φ lk' φ' := by
  rw [PlainStep, hφ, hφ']
  exact .releaseRead h

/-- a step is a step of the plain lock, or changes nothing there; `fair_lock` moves with its owner -/
theorem project_step {lk lk' : Rwlock} {φ φ' : RwPhase} (h : RwStep rwlock lk φ lk' φ') :
    (plainLock lk' = plainLock lk ∧ plainPhase φ' = plainPhase φ ∨ PlainStep lk φ lk' φ') ∧
    lk'.fairLock + hasFair φ' = lk.fairLock + hasFair φ := by
  cases h with
  | call m =>
    cases m
    · exact ⟨.inr (RwStep.call (F := ReaderWriter.rwlock) _ .read), rfl⟩
    · exact ⟨.inr (RwStep.call (F := ReaderWriter.rwlock) _ .write), rfl⟩
  | release m =>
    cases m
    · exact ⟨.inr (RwStep.release (F := ReaderWriter.rwlock) _ .read), rfl⟩
    · exact ⟨.inr (RwStep.release (F := ReaderWriter.rwlock) _ .write), rfl⟩
  | acquireRead h =>
    rename_i p q
    cases p with
    | waitFair =>
      obtain ⟨v, hv, he⟩ := wait_step h
      cases he
      exact ⟨.inl ⟨rfl, rfl⟩, by simp [hasFair, acquireNext, hv]⟩
    | waitReadlock =>
      obtain ⟨v, hv, he⟩ := wait_step h
      cases he
      refine ⟨.inr (plain_acquireRead .waitLock (some .loadReaders) ?_ rfl rfl), rfl⟩
      simp [ReaderWriter.rwlockAcquireReadlock, plainLock, hv]
    | testReaders =>
      cases h
      split_ifs with h1
      · refine ⟨.inr (plain_acquireRead .testReaders (some .waitWritelock) ?_ rfl rfl), rfl⟩
        simp [ReaderWriter.rwlockAcquireReadlock, plainLock, h1]
      · refine ⟨.inr (plain_acquireRead .testReaders (some .postLock) ?_ rfl rfl), rfl⟩
        simp [ReaderWriter.rwlockAcquireReadlock, plainLock, h1]
    | waitWritelock =>
      obtain ⟨v, hv, he⟩ := wait_step h
      cases he
      refine ⟨.inr (plain_acquireRead .waitWritelock (some .postLock) ?_ rfl rfl), rfl⟩
      simp [ReaderWriter.rwlockAcquireReadlock, plainLock, hv]
    | loadReaders =>
      cases h
      exact ⟨.inr (plain_acquireRead .loadReaders (some (.storeReaders lk.readers)) rfl rfl rfl), rfl⟩
    | storeReaders tmp =>
      cases h
      exact ⟨.inr (plain_acquireRead (.storeReaders tmp) (some .testReaders) rfl rfl rfl), rfl⟩
    | postReadlock =>
      cases h
      exact ⟨.inr (plain_acquireRead .postLock none rfl rfl rfl), rfl⟩
    | postFair =>
      cases h
      exact ⟨.inl ⟨rfl, rfl⟩, rfl⟩
  | acquireWrite h =>
    rename_i p q
    cases p with
    | waitFair =>
      obtain ⟨v, hv, he⟩ := wait_step h
      cases he
      exact ⟨.inl ⟨rfl, rfl⟩, by simp [hasFair, acquireNext, hv]⟩
    | waitWritelock =>
      obtain ⟨v, hv, he⟩ := wait_step h
      cases he
      refine ⟨.inr (RwStep.acquireWrite (F := ReaderWriter.rwlock) (p := .waitWritelock) (q := none) ?_), rfl⟩
      simp [ReaderWriter.rwlock, ReaderWriter.rwlockAcquireWritelock, plainLock, hv]
  | releaseRead h =>
    rename_i p q
    cases p with
    | waitReadlock =>
      obtain ⟨v, hv, he⟩ := wait_step h
      cases he
      refine ⟨.inr (plain_releaseRead .waitLock (some .loadReaders) ?_ rfl rfl), rfl⟩
      simp [ReaderWriter.rwlockReleaseReadlock, plainLock, hv]
    | loadReaders =>
      cases h
      exact ⟨.inr (plain_releaseRead .loadReaders (some (.storeReaders lk.readers)) rfl rfl rfl), rfl⟩
    | storeReaders tmp =>
      cases h
      exact ⟨.inr (plain_releaseRead (.storeReaders tmp) (some .testReaders) rfl rfl rfl), rfl⟩
    | testReaders =>
      cases h
      split_ifs with h1
      · refine ⟨.inr (plain_releaseRead .testReaders (some .postWritelock) ?_ rfl rfl), rfl⟩
        simp [ReaderWriter.rwlockReleaseReadlock, plainLock, h1]
      · refine ⟨.inr (plain_releaseRead .testReaders (some .postLock) ?_ rfl rfl), rfl⟩
        simp [ReaderWriter.rwlockReleaseReadlock, plainLock, h1]
    | postWritelock =>
      cases h
      exact ⟨.inr (plain_releaseRead .postWritelock (some .postLock) rfl rfl rfl), rfl⟩
    | postReadlock =>
      cases h
      exact ⟨.inr (plain_releaseRead .postLock none rfl rfl rfl), rfl⟩
  | releaseWrite h =>
    rename_i p q
    cases p with
    | postWritelock =>
      cases h
      exact ⟨.inr (RwStep.releaseWrite (F := ReaderWriter.rwlock) (p := .postWritelock) (q := none) rfl), rfl⟩
    | postFair =>
      cases h
      exact ⟨.inl ⟨rfl, rfl⟩, rfl⟩

/-- without `fair_lock` a thread is never newly counted in `rw->readers` -/
theorem counted_le {lk lk' : Rwlock} {φ φ' : RwPhase} (h : RwStep rwlock lk φ lk' φ') (hf : hasFair φ = 0) :
    ReaderWriter.counted (plainPhase φ') ≤ ReaderWriter.counted (plainPhase φ) := by
  cases h with
  | call m => cases m <;> exact le_rfl
  | release m => cases m <;> exact le_rfl
  | acquireRead h =>
    rename_i p q
    cases p with
    | waitFair =>
      obtain ⟨v, hv, he⟩ := wait_step h
      cases he
      exact le_rfl
    | _ => cases hf
  | acquireWrite h =>
    rename_i p q
    cases p with
    | waitFair =>
      obtain ⟨v, hv, he⟩ := wait_step h
      cases he
      exact le_rfl
    | waitWritelock => cases hf
  | releaseRead h =>
    rename_i p q
    cases p with
    | waitReadlock =>
      obtain ⟨v, hv, he⟩ := wait_step h
      cases he
      exact le_rfl
    | testReaders =>
      cases h
      split_ifs <;> exact le_rfl
    | _ =>
      cases h
      simp [plainPhase, plainRelease, releaseNext, ReaderWriter.counted]
  | releaseWrite h =>
    rename_i p q
    cases p <;> cases hf

/-! ## Who holds -/

/-- holds the read lock, up to the first step of the release -/
def reading : RwPhase → ℕ
  | .holding .read => 1
  | .releasing (.read .waitReadlock) => 1
  | _ => 0

/-- holds the write lock, up to the first step of the release -/
def writing : RwPhase → ℕ
  | .holding .write => 1
  | .releasing (.write .postWritelock) => 1
  | _ => 0

/-- a step of a thread that does not own `fair_lock` ends no acquire and makes no new holder -/
theorem step_unfair {T D B X : Type} {K : Client Mode D B X} {t : T} {sh sh' : Shared Rwlock D} {l l' : RwLoc B}
    {es : List (Event T Mode X)} (h : Step rwlock.impl K t sh l sh' l' es) (hf : hasFair l.phase = 0) :
    (∀ u m, Event.acquired u m ∉ es) ∧ reading l'.phase ≤ reading l.phase ∧ writing l'.phase ≤ writing l.phase := by
  cases h with
  | call => exact ⟨by simp, Nat.zero_le _, Nat.zero_le _⟩
  | acquiring => exact ⟨by simp, Nat.zero_le _, Nat.zero_le _⟩
  | @acquired c x x' d b p m h =>
    cases p with
    | read p =>
      cases p with
      | waitFair => simp [rwlock, RwFunctions.impl, rwlockAcquireReadlock, lift] at h
      | _ => cases hf
    | write p =>
      cases p with
      | waitFair => simp [rwlock, RwFunctions.impl, rwlockAcquireWritelock, lift] at h
      | waitWritelock => cases hf
  | body => exact ⟨by simp, le_rfl, le_rfl⟩
  | @release x d b m =>
    cases m with
    | read => exact ⟨by simp, le_rfl, le_rfl⟩
    | write => cases hf
  | @releasing c x x' d b p p' h =>
    cases p with
    | read p =>
      refine ⟨by simp, ?_, ?_⟩ <;> cases p <;>
        simp [rwlock, RwFunctions.impl, rwlockReleaseReadlock, lift] at h
      all_goals
        obtain ⟨v, -, -, rfl⟩ := h
        first
          | exact Nat.zero_le _
          | split_ifs <;> exact Nat.zero_le _
    | write p => cases hf
  | released => exact ⟨by simp, Nat.zero_le _, Nat.zero_le _⟩

/-- the only step of a writer that waits for `writelock` ends its acquire -/
theorem waiting_step {T D B X : Type} {K : Client Mode D B X} {t : T} {sh sh' : Shared Rwlock D} {l l' : RwLoc B}
    {es : List (Event T Mode X)} (h : Step rwlock.impl K t sh l sh' l' es)
    (hw : l.phase = .acquiring (.write .waitWritelock)) : Event.acquired t .write ∈ es := by
  cases h with
  | @acquiring c x x' d b p p' h =>
    cases hw
    simp [rwlock, RwFunctions.impl, rwlockAcquireWritelock, lift] at h
  | @acquired c x x' d b p m h =>
    cases hw
    simp [rwlock, RwFunctions.impl, rwlockAcquireWritelock, lift] at h
    obtain ⟨v, -, -, rfl⟩ := h
    exact List.mem_singleton.2 rfl
  | _ => cases hw

/-! ## The invariant -/

variable {T : Type} [Fintype T]

structure Inv (lk : Rwlock) (ph : T → RwPhase) : Prop where
  fair : lk.fairLock + total hasFair ph = 1
  plain : ReaderWriter.Inv (plainLock lk) fun t => plainPhase (ph t)
  /-- between the two posts of its release a writer still keeps readers out -/
  idle : ∀ t, ph t = .releasing (.write .postFair) → lk.readers = 0

theorem inv_init : Inv rwlockInit fun _ : T => Phase.out := by
  refine ⟨?_, ReaderWriter.inv_init, fun _ h => by cases h⟩
  simp [total_const, hasFair, rwlockInit]

variable [DecidableEq T]

omit [Fintype T] in
theorem plainPhase_update (ph : T → RwPhase) (t : T) (φ : RwPhase) :
    (fun u => plainPhase (Function.update ph t φ u)) =
      Function.update (fun u => plainPhase (ph u)) t (plainPhase φ) := by
  funext u
  by_cases hu : u = t
  · subst hu; simp
  · simp [hu]

theorem plain_step {lk lk' : Rwlock} {ph : T → RwPhase} {t : T} {φ : RwPhase}
    (h : ReaderWriter.Inv (plainLock lk) fun t => plainPhase (ph t)) (hs : RwStep rwlock lk (ph t) lk' φ) :
    ReaderWriter.Inv (plainLock lk') fun u => plainPhase (Function.update ph t φ u) := by
  rw [plainPhase_update]
  rcases (project_step hs).1 with ⟨h1, h2⟩ | h1
  · rw [h1, h2, Function.update_eq_self t fun u => plainPhase (ph u)]
    exact h
  · exact ReaderWriter.inv_step h h1

/-- two threads that own `fair_lock` are the same -/
theorem Inv.fair_unique {lk : Rwlock} {ph : T → RwPhase} (h : Inv lk ph) {t u : T}
    (ht : 0 < hasFair (ph t)) (hu : 0 < hasFair (ph u)) :
    t = u :=
  eq_of_total_le_one (by have := h.fair; omega) ht hu

theorem plainPhase_acquiring {φ : RwPhase} {p : ReaderWriter.AcquireReadlock}
    (h : plainPhase φ = .acquiring (.read p)) (hp : p ≠ .waitLock) : hasFair φ = 1 := by
  cases φ with
  | out => cases h
  | holding m => cases h
  | acquiring q =>
    cases q with
    | read q => cases q <;> cases h <;> first | rfl | exact absurd rfl hp
    | write q => cases h
  | releasing q =>
    cases q with
    | read q => cases h
    | write q => cases q <;> cases h

theorem plainPhase_writing {φ : RwPhase} (h : 0 < ReaderWriter.writing (plainPhase φ)) :
    φ = .holding .write ∨ φ = .releasing (.write .postWritelock) := by
  cases φ with
  | out => cases h
  | holding m => cases m <;> first | exact .inl rfl | cases h
  | acquiring q =>
    cases q with
    | read q => cases q <;> cases h
    | write q => cases h
  | releasing q =>
    cases q with
    | read q => cases h
    | write q => cases q <;> first | exact .inr rfl | cases h

theorem plainPhase_releasing {φ : RwPhase} {p : ReaderWriter.ReleaseReadlock}
    (h : plainPhase φ = .releasing (.read p)) : ∃ q, φ = .releasing (.read q) ∧ plainRelease q = p := by
  cases φ with
  | out => cases h
  | holding m => cases h
  | acquiring q =>
    cases q with
    | read q => cases q <;> cases h
    | write q => cases h
  | releasing q =>
    cases q with
    | read q => cases h; exact ⟨q, rfl, rfl⟩
    | write q => cases q <;> cases h

theorem plainPhase_counted {φ : RwPhase} (h : 0 < ReaderWriter.counted (plainPhase φ))
    (ho : ReaderWriter.inSection (plainPhase φ) = 0) :
    φ = .holding .read ∨ φ = .acquiring (.read .postFair) ∨ φ = .releasing (.read .waitReadlock) := by
  cases φ with
  | out => cases h
  | holding m => cases m <;> first | exact .inl rfl | cases h
  | acquiring q =>
    cases q with
    | read q => cases q <;> first
      | exact .inr (.inl rfl)
      | exact absurd h (Nat.lt_irrefl 0)
      | exact absurd ho Nat.one_ne_zero
    | write q => cases h
  | releasing q =>
    cases q with
    | read q => cases q <;> first
      | exact .inr (.inr rfl)
      | exact absurd h (Nat.lt_irrefl 0)
      | exact absurd ho Nat.one_ne_zero
    | write q => cases q <;> cases h

/-- when another thread owns `fair_lock`, the thread inside the section is a releasing reader -/
theorem section_releasing {lk : Rwlock} {ph : T → RwPhase} (h : Inv lk ph) {t u : T} (hne : t ≠ u)
    (ht : 0 < hasFair (ph t)) (hu : ReaderWriter.inSection (plainPhase (ph u)) = 1) :
    ∃ p, ph u = .releasing (.read p) := by
  rcases ReaderWriter.inSection_cases hu with ⟨p, hp⟩ | ⟨p, hp⟩
  · have : hasFair (ph u) = 1 :=
      plainPhase_acquiring hp (by rintro rfl; rw [hp] at hu; cases hu)
    exact absurd (h.fair_unique ht (by omega)) hne
  · obtain ⟨q, hq, -⟩ := plainPhase_releasing hp
    exact ⟨q, hq⟩

/-- a writer that is about to post `writelock` leaves no reader behind -/
theorem readers_of_writer {lk : Rwlock} {ph : T → RwPhase} (h : Inv lk ph) {t : T}
    (ht : ph t = .releasing (.write .postWritelock)) : lk.readers = 0 := by
  have hp := h.plain
  have h1 : ReaderWriter.writing (plainPhase (ph t)) = 1 := by rw [ht]; rfl
  have hW := le_total ReaderWriter.writing (fun u => plainPhase (ph u)) t
  simp only [h1] at hW
  have hr : lk.readers = total ReaderWriter.counted (fun u => plainPhase (ph u)) := hp.readers
  have hle : lk.readers ≤ 0 := by
    by_cases hl : lk.readlock = 1
    · have htok := ReaderWriter.token_cases lk.readers
      have hf : lk.writelock + total ReaderWriter.writing (fun u => plainPhase (ph u)) +
        ReaderWriter.token lk.readers = 1 := hp.free hl
      omega
    · obtain ⟨u, hu⟩ := ReaderWriter.exists_inSection hp hl
      have hne : t ≠ u := by
        rintro rfl
        simp only [ht] at hu
        cases hu
      obtain ⟨p, hq⟩ := section_releasing h hne (by rw [ht]; exact Nat.one_pos) hu
      have hb := hp.busy u
      simp only [hq] at hb hu
      exact ReaderWriter.readers_of_busy hb hu hW
  omega

theorem into_postFair {lk lk' : Rwlock} {φ φ' : RwPhase} (h : RwStep rwlock lk φ lk' φ')
    (he : φ' = .releasing (.write .postFair)) :
    φ = .releasing (.write .postWritelock) ∧ lk'.readers = lk.readers := by
  cases h with
  | call m => cases m <;> cases he
  | release m => cases m <;> cases he
  | acquireRead h =>
    rename_i p q
    cases q <;> cases he
  | acquireWrite h =>
    rename_i p q
    cases q <;> cases he
  | releaseRead h =>
    rename_i p q
    cases q <;> cases he
  | releaseWrite h =>
    rename_i p q
    cases p <;> simp [rwlock, rwlockReleaseWritelock] at h
    · obtain ⟨rfl, rfl⟩ := h
      exact ⟨rfl, rfl⟩
    · obtain ⟨rfl, rfl⟩ := h
      cases he

theorem inv_step {lk lk' : Rwlock} {ph : T → RwPhase} {t : T} {φ : RwPhase} (h : Inv lk ph)
    (hs : RwStep rwlock lk (ph t) lk' φ) : Inv lk' (Function.update ph t φ) := by
  have hF := total_update hasFair ph t φ
  have hf := h.fair
  have hf' := (project_step hs).2
  have hp' := plain_step h.plain hs
  refine ⟨by omega, hp', ?_⟩
  intro u hu
  by_cases hut : u = t
  · subst hut
    rw [Function.update_self] at hu
    obtain ⟨h1, h2⟩ := into_postFair hs hu
    rw [h2]
    exact readers_of_writer h h1
  · rw [Function.update_of_ne hut] at hu
    have h0 := h.idle u hu
    have hne := add_le_total hasFair ph hut
    have hu1 : hasFair (ph u) = 1 := by rw [hu]; rfl
    have hc := counted_le hs (by omega)
    have hC := total_update ReaderWriter.counted (fun v => plainPhase (ph v)) t (plainPhase φ)
    rw [← plainPhase_update] at hC
    have h1 : lk.readers = total ReaderWriter.counted (fun u => plainPhase (ph u)) := h.plain.readers
    have h2 : lk'.readers = total ReaderWriter.counted (fun u => plainPhase (Function.update ph t φ u)) := hp'.readers
    omega

theorem run_inv {D B X : Type} {K : Client Mode D B X} {d : D} {b : T → B} {as : List (T × Unit)}
    {tr : List (Event T Mode X)} {s : St T (Shared Rwlock D) (RwLoc B)}
    (h : Run (prog rwlock.impl K) (start rwlock.impl d b) as tr s) : Inv s.sh.lock (phases s) :=
  lock_inv inv_init (fun _ _ _ _ _ hi hs => inv_step hi (rw_step hs)) h

/-- `readers` changes only inside the `readlock` section -/
theorem readers_eq {lk lk' : Rwlock} {ph : T → RwPhase} {t u : T} {φ : RwPhase} (h : Inv lk ph)
    (hs : RwStep rwlock lk (ph t) lk' φ) (hne : u ≠ t) (hu : ReaderWriter.inSection (plainPhase (ph u)) = 1) :
    lk'.readers = lk.readers := by
  have hp := h.plain
  have hm := hp.mutex
  have h1 := add_le_total ReaderWriter.inSection (fun v => plainPhase (ph v)) hne
  rcases (project_step hs).1 with ⟨h2, -⟩ | h2
  · exact congrArg ReaderWriter.Rwlock.readers h2
  · have hW := total_update ReaderWriter.writing (fun v => plainPhase (ph v)) t (plainPhase φ)
    have hC := le_total ReaderWriter.counted (fun v => plainPhase (ph v)) t
    have e := ReaderWriter.step_effect h2 (hp.busy t) (fun hl => by omega) (by have := hp.readers; omega) hW
    have he := e.lock
    exact (e.outside (by omega) (by omega)).1

/-! ## Exclusion -/

theorem hasFair_of_writer {φ : RwPhase} (h : φ = .holding .write ∨ ∃ p, φ = .releasing (.write p)) :
    hasFair φ = 1 := by
  rcases h with rfl | ⟨p, rfl⟩ <;> rfl

/-- **Exclusion.** In every state of every run a writer, from the end of its acquire to the end of its release, excludes
every other holder. -/
theorem nostarve_exclusion : Excludes rwlock := by
  intro T _ _ D B X K d b as tr s h t u hne ht m hu
  have hi := run_inv h
  have hp := hi.plain
  cases m with
  | write =>
    have h1 := hasFair_of_writer ht
    have h2 := hasFair_of_writer (.inl hu)
    exact hne (hi.fair_unique (by omega) (by omega))
  | read =>
    have hru : ReaderWriter.reading (plainPhase (phases s u)) = 1 := by rw [hu]; rfl
    have hW := ReaderWriter.no_writer_of_reading hp hru
    have hWt := le_total ReaderWriter.writing (fun v => plainPhase (phases s v)) t
    rcases ht with ht | ⟨p, ht⟩
    · have : ReaderWriter.writing (plainPhase (phases s t)) = 1 := by rw [ht]; rfl
      omega
    · cases p with
      | postWritelock =>
        have : ReaderWriter.writing (plainPhase (phases s t)) = 1 := by rw [ht]; rfl
        omega
      | postFair =>
        have hr := hp.readers
        have hC := le_total ReaderWriter.counted (fun v => plainPhase (phases s v)) u
        have hcu : ReaderWriter.counted (plainPhase (phases s u)) = 1 := by rw [hu]; rfl
        have h0 := hi.idle t ht
        simp only [plainLock] at hr
        omega

/-! ## A waiting writer is not overtaken -/

/-- a writer that owns `fair_lock` and waits is blocked only by a reader that holds or is releasing -/
theorem blocked_by_reader {lk : Rwlock} {ph : T → RwPhase} (h : Inv lk ph) {w : T}
    (hw : ph w = .acquiring (.write .waitWritelock)) (h0 : lk.writelock = 0) :
    ∃ u, ph u = .holding .read ∨ ∃ p, ph u = .releasing (.read p) := by
  have hp := h.plain
  have hfw : hasFair (ph w) = 1 := by rw [hw]; rfl
  have hW : total ReaderWriter.writing (fun v => plainPhase (ph v)) = 0 := total_eq_zero fun v => by
    by_contra hv
    have hv' := plainPhase_writing (Nat.pos_of_ne_zero hv)
    have hfv : hasFair (ph v) = 1 := hasFair_of_writer (hv'.imp id fun h => ⟨_, h⟩)
    obtain rfl := h.fair_unique (t := v) (u := w) (by omega) (by omega)
    rw [hw] at hv'
    rcases hv' with hv' | hv' <;> cases hv'
  by_cases hl : lk.readlock = 1
  · have htok := ReaderWriter.token_cases lk.readers
    have hfree : lk.writelock + total ReaderWriter.writing (fun u => plainPhase (ph u)) +
      ReaderWriter.token lk.readers = 1 := hp.free hl
    have hr : lk.readers = total ReaderWriter.counted (fun u => plainPhase (ph u)) := hp.readers
    obtain ⟨u, hu⟩ := exists_of_total_pos ReaderWriter.counted (fun u => plainPhase (ph u)) (by omega)
    rcases plainPhase_counted hu (ReaderWriter.outside_of_free hp hl u) with h1 | h1 | h1
    · exact ⟨u, .inl h1⟩
    · obtain rfl := h.fair_unique (t := w) (u := u) (by omega) (by rw [h1]; exact Nat.one_pos)
      rw [hw] at h1
      cases h1
    · exact ⟨u, .inr ⟨_, h1⟩⟩
  · obtain ⟨u, hu⟩ := ReaderWriter.exists_inSection hp hl
    have hne : w ≠ u := by
      rintro rfl
      simp only [hw] at hu
      cases hu
    exact ⟨u, .inr (section_releasing h hne (by omega) hu)⟩

/-- **No overtaking.** From a state in which the writer `w` has passed `fair_lock` and waits for `writelock`, as long as
`w` has not acquired: `w` waits at the same point, no thread has acquired, the holders of the read lock are among those
at the start, nobody holds the write lock, and `w` is blocked only while some reader holds the lock or is inside
`rwlock_release_readlock`. -/
theorem no_overtaking {D B X : Type} (K : Client Mode D B X) (d : D) (b : T → B) {as bs : List (T × Unit)}
    {tr tr' : List (Event T Mode X)} {s s' : St T (Shared Rwlock D) (RwLoc B)}
    (h : Run (prog rwlock.impl K) (start rwlock.impl d b) as tr s) (w : T)
    (hw : phases s w = .acquiring (.write .waitWritelock)) (h' : Run (prog rwlock.impl K) s bs tr' s')
    (hwait : Event.acquired w .write ∉ tr') :
    phases s' w = .acquiring (.write .waitWritelock) ∧ (∀ u m, Event.acquired u m ∉ tr') ∧
      (∀ u, reading (phases s' u) = 1 → reading (phases s u) = 1) ∧ (∀ u, writing (phases s' u) = 0) ∧
      (s'.sh.lock.writelock = 0 → ∃ u, phases s' u = .holding .read ∨ ∃ p, phases s' u = .releasing (.read p)) := by
  have hI := run_inv h
  induction h' with
  | nil =>
    refine ⟨hw, by simp, fun u hu => hu, ?_, blocked_by_reader hI hw⟩
    intro u
    by_contra hu
    have hfu : hasFair (phases s u) = 1 := by
      unfold writing at hu
      split at hu <;> simp_all [hasFair]
    obtain rfl := hI.fair_unique (t := w) (u := u) (by rw [hw]; exact Nat.one_pos) (by omega)
    rw [hw] at hu
    exact hu rfl
  | @snoc bs tr' s1 h1 t c sh l es hs ih =>
    obtain ⟨i1, i2, i3, i4, -⟩ := ih fun hm => hwait (List.mem_append_left _ hm)
    have hI1 := run_inv (h.append h1)
    have hst := prog_step hs
    have hne : w ≠ t := by
      rintro rfl
      exact hwait (List.mem_append_right _ (waiting_step hst i1))
    have hft : hasFair (s1.loc t).phase = 0 := by
      by_contra hc
      exact hne (hI1.fair_unique (t := w) (u := t) (by rw [i1]; exact Nat.one_pos) (Nat.pos_of_ne_zero hc))
    obtain ⟨e1, e2, e3⟩ := step_unfair hst hft
    have hI2 : Inv (s1.move t sh l).sh.lock (phases (s1.move t sh l)) := run_inv ((h.append h1).snoc hs)
    rw [phases_move] at hI2 ⊢
    have hw2 : Function.update (phases s1) t l.phase w = .acquiring (.write .waitWritelock) := by
      rw [Function.update_of_ne hne]
      exact i1
    refine ⟨hw2, ?_, ?_, ?_, blocked_by_reader hI2 hw2⟩
    · intro u m hm
      rcases List.mem_append.1 hm with hm | hm
      · exact i2 u m hm
      · exact e1 u m hm
    · intro u hu
      by_cases hut : u = t
      · subst hut
        rw [Function.update_self] at hu
        have : reading (s1.loc u).phase ≤ 1 := by unfold reading; split <;> omega
        exact i3 u (by simp only [phases]; omega)
      · rw [Function.update_of_ne hut] at hu
        exact i3 u hu
    · intro u
      by_cases hut : u = t
      · subst hut
        rw [Function.update_self]
        have := i4 u
        simp only [phases] at this
        omega
      · rw [Function.update_of_ne hut]
        exact i4 u

/-- a writer waits for a reader, and another reader has called and cannot get in -/
theorem no_overtaking_three :
    ∃ as tr s s', Run (prog rwlock.impl (callList Mode))
      (start rwlock.impl () fun t : Fin 3 => if t = 0 then [.write] else [.read]) as tr s ∧
      Run (prog rwlock.impl (callList Mode)) s [(2, ())] [.acquiring 2 .read] s' ∧
      phases s' 0 = .acquiring (.write .waitWritelock) ∧ writing (phases s' 2) = 0 ∧
      ∃ u, phases s' u = .holding .read ∨ ∃ p, phases s' u = .releasing (.read p) := by
  obtain ⟨s, tr, h, hw, h0, hr⟩ := exec_any_run (prog rwlock.impl (callList Mode))
    (start rwlock.impl () fun t : Fin 3 => if t = 0 then [.write] else [.read])
    ([1, 1, 1, 1, 1, 1, 1, 1, 1, 0, 0].map fun t => (t, ()))
    (fun s _ => phases s 0 = .acquiring (.write .waitWritelock) ∧ s.sh.lock.writelock = 0 ∧
      s.loc 2 = ⟨.out, [.read]⟩) (by decide +kernel)
  have h' : Run (prog rwlock.impl (callList Mode)) s [(2, ())] [.acquiring 2 .read]
      (s.move 2 s.sh ⟨.acquiring (.read .waitFair), []⟩) := Run.single (by rw [hr]; rfl)
  obtain ⟨h1, -, -, h4, h5⟩ := no_overtaking (callList Mode) _ _ h 0 hw h' (by decide)
  exact ⟨_, tr, s, _, h, h', h1, h4 2, h5 h0⟩

/-- a writer that owns `fair_lock` gets `writelock` only when the last reader has posted it -/
theorem readers_of_enabled {lk : Rwlock} {ph : T → RwPhase} (h : Inv lk ph) {w : T}
    (hw : ph w = .acquiring (.write .waitWritelock)) (h0 : 0 < lk.writelock) :
    lk.readers = 0 ∧
      ∀ v, ph v ≠ .releasing (.read .testReaders) ∧ ph v ≠ .releasing (.read .postWritelock) := by
  have hp := h.plain
  refine ⟨?_, fun v => ⟨?_, ?_⟩⟩
  · have hr : lk.readers = total ReaderWriter.counted (fun u => plainPhase (ph u)) := hp.readers
    have htok := ReaderWriter.token_cases lk.readers
    by_cases hl : lk.readlock = 1
    · have hfree : lk.writelock + total ReaderWriter.writing (fun u => plainPhase (ph u)) +
        ReaderWriter.token lk.readers = 1 := hp.free hl
      omega
    · obtain ⟨u, hu⟩ := ReaderWriter.exists_inSection hp hl
      have hne : w ≠ u := by
        rintro rfl
        simp only [hw] at hu
        cases hu
      obtain ⟨p, hq⟩ := section_releasing h hne (by rw [hw]; exact Nat.one_pos) hu
      have hb := hp.busy u
      have hc := le_total ReaderWriter.counted (fun u => plainPhase (ph u)) u
      simp only [hq] at hb hu hc
      cases p with
      | waitReadlock => cases hu
      | _ => simp only [plainPhase, plainRelease, plainLock, ReaderWriter.Busy, ReaderWriter.counted] at hb hc; omega
  · intro hv
    have hb := hp.busy v
    simp only [hv, plainPhase, plainRelease, plainLock, ReaderWriter.Busy] at hb
    omega
  · intro hv
    have hb := hp.busy v
    simp only [hv, plainPhase, plainRelease, plainLock, ReaderWriter.Busy] at hb
    omega

/-! ## Progress -/

theorem acquireReadlock_isSome {lk : Rwlock} {p : AcquireReadlock} (h1 : p = .waitFair → 0 < lk.fairLock)
    (h2 : p = .waitReadlock → 0 < lk.readlock) (h3 : p = .waitWritelock → 0 < lk.writelock) :
    (rwlock.impl.acquireCode () lk (.read p)).isSome := by
  cases p with
  | waitFair => simp [rwlock, RwFunctions.impl, rwlockAcquireReadlock, semWait, h1 rfl]
  | waitReadlock => simp [rwlock, RwFunctions.impl, rwlockAcquireReadlock, semWait, h2 rfl]
  | waitWritelock => simp [rwlock, RwFunctions.impl, rwlockAcquireReadlock, semWait, h3 rfl]
  | _ => rfl

theorem acquireWritelock_isSome {lk : Rwlock} {p : AcquireWritelock} (h1 : p = .waitFair → 0 < lk.fairLock)
    (h2 : p = .waitWritelock → 0 < lk.writelock) : (rwlock.impl.acquireCode () lk (.write p)).isSome := by
  cases p with
  | waitFair => simp [rwlock, RwFunctions.impl, rwlockAcquireWritelock, semWait, h1 rfl]
  | waitWritelock => simp [rwlock, RwFunctions.impl, rwlockAcquireWritelock, semWait, h2 rfl]

theorem release_isSome {lk : Rwlock} {p : Release ReleaseReadlock ReleaseWritelock}
    (h : p = .read .waitReadlock → 0 < lk.readlock) : (rwlock.impl.releaseCode () lk p).isSome := by
  cases p with
  | read p =>
    cases p with
    | waitReadlock => simp [rwlock, RwFunctions.impl, rwlockReleaseReadlock, semWait, h rfl]
    | _ => rfl
  | write p => cases p <;> rfl

/-- **No deadlock.** In every state of every run, if a thread has not finished then some thread can step. -/
theorem nostarve_no_deadlock {D B X : Type} (K : Client Mode D B X) (d : D) (b : T → B) {as : List (T × Unit)}
    {tr : List (Event T Mode X)} {s : St T (Shared Rwlock D) (RwLoc B)}
    (h : Run (prog rwlock.impl K) (start rwlock.impl d b) as tr s) (hf : ∃ t, ¬ Finished K s t) :
    ∃ t, CanStep (prog rwlock.impl K) s t := by
  have hi := run_inv h
  have hp := hi.plain
  by_contra hno
  push Not at hno
  -- no writer: it could post
  have hW : total ReaderWriter.writing (fun t => plainPhase (phases s t)) = 0 := total_eq_zero fun t => by
    by_contra hc
    rcases plainPhase_writing (Nat.pos_of_ne_zero hc) with h1 | h1
    · exact hno t (canStep_of_holding h1)
    · exact hno t (canStep_of_releasing h1 (release_isSome (by simp)))
  -- nobody inside the `readlock` section: the only point that blocks there waits for a writer
  have hl : s.sh.lock.readlock = 1 := by
    by_contra hl
    obtain ⟨t, ht⟩ := ReaderWriter.exists_inSection hp hl
    have hb := hp.busy t
    cases hq : phases s t with
    | out => rw [hq] at ht; cases ht
    | holding m => rw [hq] at ht; cases ht
    | acquiring p =>
      rw [hq] at ht hb
      cases p with
      | read p =>
        refine hno t (canStep_of_acquiring hq (acquireReadlock_isSome ?_ ?_ ?_))
        · rintro rfl; cases ht
        · rintro rfl; cases ht
        · intro h1
          subst h1
          obtain ⟨-, h2⟩ := hb
          simp only [plainLock] at h2
          omega
      | write p => cases ht
    | releasing p =>
      refine hno t (canStep_of_releasing hq (release_isSome ?_))
      rintro rfl
      rw [hq] at ht
      cases ht
  -- no reader is counted: it could step
  have hC : total ReaderWriter.counted (fun t => plainPhase (phases s t)) = 0 := total_eq_zero fun t => by
    by_contra hc
    rcases plainPhase_counted (Nat.pos_of_ne_zero hc) (ReaderWriter.outside_of_free hp hl t) with h1 | h1 | h1
    · exact hno t (canStep_of_holding h1)
    · exact hno t (canStep_of_acquiring h1 (acquireReadlock_isSome (by simp) (by simp) (by simp)))
    · exact hno t (canStep_of_releasing h1 (release_isSome fun _ => by omega))
  have hw : 0 < s.sh.lock.writelock := by
    have htok := ReaderWriter.token_cases s.sh.lock.readers
    have hr : s.sh.lock.readers = total ReaderWriter.counted (fun t => plainPhase (phases s t)) := hp.readers
    have hfree : s.sh.lock.writelock + total ReaderWriter.writing (fun t => plainPhase (phases s t)) +
      ReaderWriter.token s.sh.lock.readers = 1 := hp.free hl
    omega
  -- so nobody who owns `fair_lock` is blocked, hence nobody owns it
  have hF : 0 < s.sh.lock.fairLock := by
    by_contra hF
    obtain ⟨t, ht⟩ := exists_of_total_pos hasFair (phases s) (by have := hi.fair; omega)
    cases hq : phases s t with
    | out => rw [hq] at ht; cases ht
    | holding m => exact hno t (canStep_of_holding hq)
    | acquiring p =>
      rw [hq] at ht
      refine hno t (canStep_of_acquiring hq (c := ()) ?_)
      cases p with
      | read p => exact acquireReadlock_isSome (by rintro rfl; cases ht) (fun _ => by omega) fun _ => hw
      | write p => exact acquireWritelock_isSome (by rintro rfl; cases ht) fun _ => hw
    | releasing p => exact hno t (canStep_of_releasing hq (release_isSome fun _ => by omega))
  obtain ⟨t, ht⟩ := hf
  cases hq : phases s t with
  | out => exact hno t (canStep_of_out hq ht)
  | holding m => exact hno t (canStep_of_holding hq)
  | acquiring p =>
    refine hno t (canStep_of_acquiring hq (c := ()) ?_)
    cases p with
    | read p => exact acquireReadlock_isSome (fun _ => hF) (fun _ => by omega) fun _ => hw
    | write p => exact acquireWritelock_isSome (fun _ => hF) fun _ => hw
  | releasing p => exact hno t (canStep_of_releasing hq (release_isSome fun _ => by omega))

end OsPractice.ReaderWriterNostarve
