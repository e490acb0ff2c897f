/-
The semaphore on a mutex and a condition variable (`sema/zemaphore.c`).

Every lock, unlock, test, load and store is one step. `pthread_cond_wait` releases the mutex and falls asleep in one
step, and locks the mutex again once the thread is awake. A signal wakes at least one sleeper if there is any, and a
sleeper may wake up without a signal. `value` is an `int`, and a post that increments the largest one wraps.

Over it stands the counting semaphore that the code is for (`semaphore`), whose value has no bound: its wait is one
guarded decrement, its post one increment. Whoever is past the test has the mutex, so what it has tested and loaded
still holds when it stores (`Reads`). The code is the counting semaphore in the runs in which no post wraps (`Fits`).

For the wake-ups the invariant `Covered` counts: while somebody sleeps, `value` is covered by the threads that have
been woken, those between the mutex and their decrement, and those that have yet to signal. It holds in every run: a
post that wraps lowers the value.

Results:
- `zem_simulates`: a run without overflow is a run of the counting semaphore with the same events;
- `zem_semaphore`: the value is what the posts and the waits make it, no wait decrements a value that is not positive;
- `not_zem_semaphore`: not so where a post wraps;
- `zem_no_lost_wakeup`: with the mutex free and a thread asleep there are at least `value` woken threads.
-/
import OsPractice.Core.Bytes
import OsPractice.Core.Interleave
import OsPractice.Core.Monitor

namespace OsPractice.Zemaphore

open Bytes Interleave Monitor

/-! ## Model -/

structure ZemT (T : Type) where
  value : BitVec 32
  cond : Cond T
  lock : Mutex T

/-- `zem_init` -/
def zemInit {T : Type} (value : BitVec 32) : ZemT T := ⟨value, ∅, none⟩

/-- what the environment chooses: the threads that a signal wakes, and whether a sleeper wakes up by itself -/
structure Choice (T : Type) where
  woken : Finset T
  spurious : Bool

/-- points of `zem_wait`; a thread at `asleep` is in `pthread_cond_wait`, asleep if the condition variable has it -/
inductive WaitPc where
  | lock
  | test
  | condWait
  | asleep
  | load
  | store (v : BitVec 32)
  | unlock
  deriving DecidableEq, Repr

/-- points of `zem_post` -/
inductive PostPc where
  | lock
  | load
  | store (v : BitVec 32)
  | signal
  | unlock
  deriving DecidableEq, Repr

variable {T : Type} [DecidableEq T]

def zemWait (t : T) (c : Choice T) (s : ZemT T) : WaitPc → Option (ZemT T × Option WaitPc)
  | .lock => (Monitor.lock t s.lock).map fun m => ({ s with lock := m }, some .test)
  | .test => if s.value.toInt ≤ 0 then some (s, some .condWait) else some (s, some .load)
  | .condWait => some ({ s with cond := insert t s.cond, lock := none }, some .asleep)
  | .asleep =>
    if t ∈ s.cond then
      if c.spurious then some ({ s with cond := s.cond.erase t }, some .asleep) else none
    else (Monitor.lock t s.lock).map fun m => ({ s with lock := m }, some .test)
  | .load => some (s, some (.store s.value))
  | .store v => some ({ s with value := v - 1 }, some .unlock)
  | .unlock => some ({ s with lock := none }, none)

def zemPost (t : T) (c : Choice T) (s : ZemT T) : PostPc → Option (ZemT T × Option PostPc)
  | .lock => (Monitor.lock t s.lock).map fun m => ({ s with lock := m }, some .load)
  | .load => some (s, some (.store s.value))
  | .store v => some ({ s with value := v + 1 }, some .signal)
  | .signal => (Monitor.signal c.woken s.cond).map fun cond => ({ s with cond := cond }, some .unlock)
  | .unlock => some ({ s with lock := none }, none)

inductive Op where
  | wait
  | post
  deriving DecidableEq, Repr

inductive Pc where
  | wait (p : WaitPc)
  | post (p : PostPc)
  deriving DecidableEq, Repr

/-- a thread: the call it is in, and the calls it has yet to make -/
structure Loc where
  running : Option Pc
  todo : List Op
  deriving DecidableEq, Repr

inductive Event (T : Type) where
  | call (t : T) (op : Op)
  /-- a wait has decremented the value -/
  | took (t : T)
  /-- a post has incremented the value -/
  | posted (t : T)
  | ret (t : T) (op : Op)
  deriving DecidableEq, Repr

def Op.enter : Op → Pc
  | .wait => .wait .lock
  | .post => .post .lock

/-- what a thread shows at the step from a point of `zem_wait` -/
def waitShows (t : T) : WaitPc → List (Event T)
  | .store _ => [.took t]
  | .unlock => [.ret t .wait]
  | _ => []

def postShows (t : T) : PostPc → List (Event T)
  | .store _ => [.posted t]
  | .unlock => [.ret t .post]
  | _ => []

def prog : Prog T (Choice T) (ZemT T) Loc (Event T) := fun t c s l =>
  match l.running, l.todo with
  | none, [] => none
  | none, op :: todo => some (s, ⟨some op.enter, todo⟩, [.call t op])
  | some (.wait p), todo => (zemWait t c s p).map fun r => (r.1, ⟨r.2.map .wait, todo⟩, waitShows t p)
  | some (.post p), todo => (zemPost t c s p).map fun r => (r.1, ⟨r.2.map .post, todo⟩, postShows t p)

/-- the semaphore initialised to `v₀`, and threads that make the calls `todo` -/
def start (v₀ : BitVec 32) (todo : T → List Op) : St T (ZemT T) Loc := ⟨zemInit v₀, fun t => ⟨none, todo t⟩⟩

/-! ## The counting semaphore -/

inductive SemPc where
  | begun (op : Op)
  | done (op : Op)
  deriving DecidableEq, Repr

/-- a thread of the counting semaphore -/
structure SemLoc where
  running : Option SemPc
  todo : List Op
  deriving DecidableEq, Repr

/-- the counting semaphore: one atomic guarded decrement, one atomic increment -/
def semaphore : Prog T Unit ℤ SemLoc (Event T) := fun t _ v l =>
  match l.running, l.todo with
  | none, [] => none
  | none, op :: todo => some (v, ⟨some (.begun op), todo⟩, [.call t op])
  | some (.begun .wait), todo => if 0 < v then some (v - 1, ⟨some (.done .wait), todo⟩, [.took t]) else none
  | some (.begun .post), todo => some (v + 1, ⟨some (.done .post), todo⟩, [.posted t])
  | some (.done op), todo => some (v, ⟨none, todo⟩, [.ret t op])

def semStart (v₀ : ℤ) (todo : T → List Op) : St T ℤ SemLoc := ⟨v₀, fun t => ⟨none, todo t⟩⟩

def Event.isTook : Event T → Bool
  | .took _ => true
  | _ => false

def Event.isPosted : Event T → Bool
  | .posted _ => true
  | _ => false

/-- the waits of a trace that have decremented -/
def tooks (tr : List (Event T)) : ℕ := tr.countP Event.isTook

/-- the posts of a trace that have incremented -/
def posts (tr : List (Event T)) : ℕ := tr.countP Event.isPosted

omit [DecidableEq T] in
/-- one step of the counting semaphore -/
theorem semaphore_step {t : T} {v v' : ℤ} {l l' : SemLoc} {es : List (Event T)}
    (h : semaphore t () v l = some (v', l', es)) :
    v' + tooks es = v + posts es ∧ (v' < v → 0 < v ∧ v' = v - 1) := by
  obtain ⟨r, todo⟩ := l
  rcases r with _ | ⟨op | op⟩
  · rcases todo with _ | ⟨op, todo⟩ <;> cases h
    simp [tooks, posts, Event.isTook, Event.isPosted]
  · rcases op with _ | _
    · simp only [semaphore] at h
      split_ifs at h with hv
      cases h
      simp [tooks, posts, Event.isTook, Event.isPosted, hv]
    · cases h
      simp [tooks, posts, Event.isTook, Event.isPosted]
  · cases h
    simp [tooks, posts, Event.isTook, Event.isPosted]

/-- the value of the counting semaphore over a run -/
theorem semaphore_value {v₀ : ℤ} {todo : T → List Op} {as : List (T × Unit)} {tr : List (Event T)}
    {u : St T ℤ SemLoc} (h : Run semaphore (semStart v₀ todo) as tr u) :
    u.sh = v₀ + posts tr - tooks tr ∧ min v₀ 0 ≤ u.sh := by
  refine h.inv_trace (I := fun tr u => u.sh = v₀ + posts tr - tooks tr ∧ min v₀ 0 ≤ u.sh) ?_ ?_
  · simp [semStart, posts, tooks]
  · intro tr u t _ v l es ⟨hv, hm⟩ hs
    obtain ⟨h1, h2⟩ := semaphore_step hs
    refine ⟨?_, ?_⟩
    · simp only [posts, tooks, List.countP_append, St.move_sh, Nat.cast_add] at *
      omega
    · rw [St.move_sh]
      omega

/-! ## What holds at the points of the code -/

/-- the points at which a thread has the mutex -/
def inLock (l : Loc) : Prop :=
  match l.running with
  | some (.wait p) => p ≠ .lock ∧ p ≠ .asleep
  | some (.post p) => p ≠ .lock
  | none => False

/-- what a thread has tested and loaded -/
def Reads (value : BitVec 32) (l : Loc) : Prop :=
  match l.running with
  | some (.wait .condWait) => value.toInt ≤ 0
  | some (.wait .load) => 0 < value.toInt
  | some (.wait (.store v)) => v = value ∧ 0 < value.toInt
  | some (.post (.store v)) => v = value
  | _ => True

theorem reads_of_outside {value : BitVec 32} {l : Loc} (h : ¬ inLock l) : Reads value l := by
  unfold Reads
  unfold inLock at h
  split <;> simp_all

/-- in `pthread_cond_wait` -/
def Sleeps (l : Loc) : Prop := l.running = some (.wait .asleep)

structure Inv (s : St T (ZemT T) Loc) : Prop where
  guards : Guards inLock s.sh.lock s.loc
  reads : ∀ t, Reads s.sh.value (s.loc t)
  sleeps : ∀ t ∈ s.sh.cond, Sleeps (s.loc t)

omit [DecidableEq T] in
theorem Inv.start (v₀ : BitVec 32) (todo : T → List Op) : Inv (start v₀ todo) where
  guards := Guards.start fun _ => by simp [Zemaphore.start, inLock]
  reads _ := trivial
  sleeps t ht := by simp [Zemaphore.start, zemInit] at ht

variable {s : St T (ZemT T) Loc} {t : T} {c : Choice T} {z : ZemT T} {l : Loc} {es : List (Event T)}

/-- a step keeps the invariant if it keeps it for the thread that moves and changes the value only with the mutex -/
theorem Inv.move (h : Inv s) (hg : Guards inLock z.lock (Function.update s.loc t l)) (hr : Reads z.value l)
    (hv : z.value = s.sh.value ∨ inLock (s.loc t))
    (hc : ∀ u ∈ z.cond, u ∈ s.sh.cond ∧ u ≠ t ∨ u = t ∧ Sleeps l) : Inv (s.move t z l) where
  guards := hg
  reads := by
    refine s.forall_move (p := fun _ l => Reads z.value l) z hr fun u hu => ?_
    rcases hv with hv | hv
    · rw [hv]
      exact h.reads u
    · exact reads_of_outside (h.guards.outside hv hu)
  sleeps u hu := by
    rcases hc u hu with ⟨hu, hne⟩ | ⟨rfl, hl⟩
    · rw [St.move_loc, Function.update_of_ne hne]
      exact h.sleeps u hu
    · simpa using hl

omit [DecidableEq T] in
/-- a thread that the condition variable has is asleep -/
theorem Inv.not_mem (h : Inv s) (ht : ¬ Sleeps (s.loc t)) {u : T} (hu : u ∈ s.sh.cond) : u ≠ t := by
  rintro rfl
  exact ht (h.sleeps u hu)

theorem Inv.wait (h : Inv s) {p : WaitPc} {todo : List Op} (hl : s.loc t = ⟨some (.wait p), todo⟩)
    {r : Option WaitPc} (hs : zemWait t c s.sh p = some (z, r)) : Inv (s.move t z ⟨r.map .wait, todo⟩) := by
  have hr := h.reads t
  have hg := h.guards
  have hin : inLock (s.loc t) ↔ p ≠ .lock ∧ p ≠ .asleep := by rw [hl]; rfl
  have hne : p ≠ .asleep → ∀ u ∈ s.sh.cond, u ≠ t := fun hp u hu => h.not_mem (by simpa [hl, Sleeps] using hp) hu
  rw [hl] at hr
  rcases p with _ | _ | _ | _ | _ | v | _
  case lock =>
    obtain ⟨hm, hz⟩ := lock_step hs
    cases hz
    rw [hm] at hg
    exact h.move (hg.enter (by simp [inLock])) trivial (.inl rfl) fun u hu => .inl ⟨hu, hne (by simp) u hu⟩
  case test =>
    have hi : inLock (s.loc t) := hin.2 (by simp)
    have hc : ∀ u ∈ s.sh.cond, u ∈ s.sh.cond ∧ u ≠ t := fun u hu => ⟨hu, hne (by simp) u hu⟩
    simp only [zemWait] at hs
    split_ifs at hs with hv
    · cases hs
      exact h.move (hg.stay (by simp [inLock, hl])) hv (.inl rfl) fun u hu => .inl (hc u hu)
    · cases hs
      exact h.move (hg.stay (by simp [inLock, hl])) (not_le.1 hv) (.inl rfl) fun u hu => .inl (hc u hu)
  case condWait =>
    cases hs
    refine h.move (hg.leave (hin.2 (by simp)) (by simp [inLock])) trivial (.inl rfl) ?_
    intro u hu
    rcases Finset.mem_insert.1 hu with rfl | hu
    · exact .inr ⟨rfl, rfl⟩
    · exact .inl ⟨hu, hne (by simp) u hu⟩
  case asleep =>
    simp only [zemWait] at hs
    split_ifs at hs with hc hsp
    · cases hs
      refine h.move (hg.stay (by simp [inLock, hl])) trivial (.inl rfl) ?_
      intro u hu
      obtain ⟨hu, hu'⟩ := Finset.mem_erase.1 hu
      exact .inl ⟨hu', hu⟩
    · obtain ⟨hm, hz⟩ := lock_step hs
      cases hz
      rw [hm] at hg
      refine h.move (hg.enter (by simp [inLock])) trivial (.inl rfl) ?_
      intro u hu
      exact .inl ⟨hu, ne_of_mem_of_not_mem hu hc⟩
  case load =>
    cases hs
    exact h.move (hg.stay (by simp [inLock, hl])) ⟨rfl, hr⟩ (.inl rfl) fun u hu => .inl ⟨hu, hne (by simp) u hu⟩
  case store =>
    cases hs
    have hi : inLock (s.loc t) := hin.2 (by simp)
    exact h.move (hg.stay (by simp [inLock, hl])) trivial (.inr hi) fun u hu => .inl ⟨hu, hne (by simp) u hu⟩
  case unlock =>
    cases hs
    exact h.move (hg.leave (hin.2 (by simp)) (by simp [inLock])) trivial (.inl rfl)
      fun u hu => .inl ⟨hu, hne (by simp) u hu⟩

theorem Inv.post (h : Inv s) {p : PostPc} {todo : List Op} (hl : s.loc t = ⟨some (.post p), todo⟩)
    {r : Option PostPc} (hs : zemPost t c s.sh p = some (z, r)) : Inv (s.move t z ⟨r.map .post, todo⟩) := by
  have hg := h.guards
  have hin : inLock (s.loc t) ↔ p ≠ .lock := by rw [hl]; rfl
  have hne : ∀ u ∈ s.sh.cond, u ∈ s.sh.cond ∧ u ≠ t := fun u hu => ⟨hu, h.not_mem (by simp [hl, Sleeps]) hu⟩
  rcases p with _ | _ | v | _ | _
  case lock =>
    obtain ⟨hm, hz⟩ := lock_step hs
    cases hz
    rw [hm] at hg
    exact h.move (hg.enter (by simp [inLock])) trivial (.inl rfl) fun u hu => .inl (hne u hu)
  case load =>
    cases hs
    exact h.move (hg.stay (by simp [inLock, hl])) rfl (.inl rfl) fun u hu => .inl (hne u hu)
  case store =>
    cases hs
    have hi : inLock (s.loc t) := hin.2 (by simp)
    exact h.move (hg.stay (by simp [inLock, hl])) trivial (.inr hi) fun u hu => .inl (hne u hu)
  case signal =>
    obtain ⟨cond, hc, hz⟩ := Option.map_eq_some_iff.1 hs
    cases hz
    obtain ⟨hsub, -⟩ := signal_eq_some hc
    exact h.move (hg.stay (by simp [inLock, hl])) trivial (.inl rfl) fun u hu => .inl (hne u (hsub hu))
  case unlock =>
    cases hs
    exact h.move (hg.leave (hin.2 (by simp)) (by simp [inLock])) trivial (.inl rfl) fun u hu => .inl (hne u hu)

/-- a step of a thread: it begins a call, or is in `zem_wait` or in `zem_post` -/
theorem prog_step (hs : prog t c s.sh (s.loc t) = some (z, l, es)) :
    (∃ op todo, s.loc t = ⟨none, op :: todo⟩ ∧ z = s.sh ∧ l = ⟨some op.enter, todo⟩ ∧ es = [.call t op]) ∨
    (∃ p r todo, s.loc t = ⟨some (.wait p), todo⟩ ∧ zemWait t c s.sh p = some (z, r) ∧ l = ⟨r.map .wait, todo⟩ ∧
      es = waitShows t p) ∨
    ∃ p r todo, s.loc t = ⟨some (.post p), todo⟩ ∧ zemPost t c s.sh p = some (z, r) ∧ l = ⟨r.map .post, todo⟩ ∧
      es = postShows t p := by
  generalize s.loc t = l₀ at hs
  obtain ⟨r, todo⟩ := l₀
  rcases r with _ | p | p
  · rcases todo with _ | ⟨op, todo⟩ <;> cases hs
    exact .inl ⟨op, todo, rfl, rfl, rfl, rfl⟩
  · obtain ⟨⟨z', r⟩, hw, he⟩ := Option.map_eq_some_iff.1 hs
    cases he
    exact .inr (.inl ⟨p, r, todo, rfl, hw, rfl, rfl⟩)
  · obtain ⟨⟨z', r⟩, hw, he⟩ := Option.map_eq_some_iff.1 hs
    cases he
    exact .inr (.inr ⟨p, r, todo, rfl, hw, rfl, rfl⟩)

theorem inv_step (h : Inv s) (hs : prog t c s.sh (s.loc t) = some (z, l, es)) : Inv (s.move t z l) := by
  rcases prog_step hs with ⟨op, todo, hl, rfl, rfl, -⟩ | ⟨p, r, todo, hl, hw, rfl, -⟩ | ⟨p, r, todo, hl, hw, rfl, -⟩
  · have hc : ∀ u ∈ s.sh.cond, u ≠ t := fun u hu => h.not_mem (by simp [hl, Sleeps]) hu
    refine h.move (h.guards.stay ?_) ?_ (.inl rfl) fun u hu => .inl ⟨hu, hc u hu⟩
    · rw [hl]
      rcases op with _ | _ <;> simp [inLock, Op.enter]
    · rcases op with _ | _ <;> trivial
  · exact h.wait hl hw
  · exact h.post hl hw

/-! ## Refinement -/

/-- where a call stands in the counting semaphore: its atomic step is the store -/
def Pc.sem : Pc → SemPc
  | .wait .unlock => .done .wait
  | .wait _ => .begun .wait
  | .post .signal => .done .post
  | .post .unlock => .done .post
  | .post _ => .begun .post

def Loc.sem (l : Loc) : SemLoc := ⟨l.running.map Pc.sem, l.todo⟩

/-- a thread that is about to store an incremented value has not loaded the largest `int` -/
def Loc.fits (l : Loc) : Prop := ∀ v, l.running = some (.post (.store v)) → v.toInt < 2 ^ 31 - 1

/-- the step of `t` is no post that increments the largest `int` -/
def Fits (s : St T (ZemT T) Loc) (t : T) (_ : Choice T) : Prop := (s.loc t).fits

instance (l : Loc) : Decidable l.fits :=
  match hl : l.running with
  | some (.post (.store v)) => decidable_of_iff (v.toInt < 2 ^ 31 - 1) (by simp [Loc.fits, hl])
  | some (.post .lock) | some (.post .load) | some (.post .signal) | some (.post .unlock) | some (.wait _) | none =>
    isTrue fun v hv => by simp [hl] at hv

instance (s : St T (ZemT T) Loc) (t : T) (c : Choice T) : Decidable (Fits s t c) :=
  inferInstanceAs (Decidable (s.loc t).fits)

/-- a step without overflow is silent or a step of the counting semaphore -/
theorem sem_step (h : Inv s) (hf : (s.loc t).fits) (hs : prog t c s.sh (s.loc t) = some (z, l, es)) :
    (es = [] ∧ z.value = s.sh.value ∧ l.sem = (s.loc t).sem) ∨
      semaphore t () s.sh.value.toInt (s.loc t).sem = some (z.value.toInt, l.sem, es) := by
  have hr := h.reads t
  rcases prog_step hs with ⟨op, todo, hl, rfl, rfl, rfl⟩ | ⟨p, r, todo, hl, hw, rfl, rfl⟩ |
      ⟨p, r, todo, hl, hw, rfl, rfl⟩
  · rw [hl]
    rcases op with _ | _ <;> exact .inr rfl
  · rw [hl] at hr ⊢
    rcases p with _ | _ | _ | _ | _ | v | _
    case lock =>
      obtain ⟨-, hz⟩ := lock_step hw
      cases hz
      exact .inl ⟨rfl, rfl, rfl⟩
    case test =>
      simp only [zemWait] at hw
      split_ifs at hw <;> cases hw <;> exact .inl ⟨rfl, rfl, rfl⟩
    case asleep =>
      simp only [zemWait] at hw
      split_ifs at hw
      · cases hw
        exact .inl ⟨rfl, rfl, rfl⟩
      · obtain ⟨-, hz⟩ := lock_step hw
        cases hz
        exact .inl ⟨rfl, rfl, rfl⟩
    case store =>
      cases hw
      obtain ⟨rfl, hv⟩ := hr
      have hdec := toInt_sub_one hv
      refine .inr ((if_pos hv).trans ?_)
      rw [← hdec]
      rfl
    case unlock =>
      cases hw
      exact .inr rfl
    all_goals
      cases hw
      exact .inl ⟨rfl, rfl, rfl⟩
  · rw [hl] at hr hf ⊢
    rcases p with _ | _ | v | _ | _
    case lock =>
      obtain ⟨-, hz⟩ := lock_step hw
      cases hz
      exact .inl ⟨rfl, rfl, rfl⟩
    case load =>
      cases hw
      exact .inl ⟨rfl, rfl, rfl⟩
    case store =>
      cases hw
      cases hr
      have hlow := BitVec.le_toInt s.sh.value
      have hup : s.sh.value.toInt < 2 ^ 31 - 1 := hf _ rfl
      have hinc : (s.sh.value + 1).toInt = s.sh.value.toInt + 1 := toInt_add (w := 1) (by simp; omega) (by simp; omega)
      exact .inr (by rw [hinc]; rfl)
    case signal =>
      obtain ⟨cond, -, hz⟩ := Option.map_eq_some_iff.1 hw
      cases hz
      exact .inl ⟨rfl, rfl, rfl⟩
    case unlock =>
      cases hw
      exact .inr rfl

/-- the states of the code and of the counting semaphore that belong together -/
def Refines (s : St T (ZemT T) Loc) (u : St T ℤ SemLoc) : Prop :=
  Inv s ∧ u.sh = s.sh.value.toInt ∧ ∀ t, u.loc t = (s.loc t).sem

theorem refines_step {u : St T ℤ SemLoc} (hr : Refines s u) (hf : Fits s t c)
    (hs : prog t c s.sh (s.loc t) = some (z, l, es)) :
    ∃ bs u', Run semaphore u bs es u' ∧ Refines (s.move t z l) u' := by
  obtain ⟨v, loc⟩ := u
  obtain ⟨hi, rfl, hloc⟩ := hr
  have hloc' : ∀ u, Function.update loc t l.sem u = ((s.move t z l).loc u).sem := by
    intro u
    by_cases hu : u = t
    · subst hu
      simp
    · simpa [hu] using hloc u
  rcases sem_step hi hf hs with ⟨rfl, hv, hl⟩ | hstep
  · refine ⟨[], ⟨s.sh.value.toInt, loc⟩, .nil, inv_step hi hs, congrArg BitVec.toInt hv.symm, ?_⟩
    intro u
    rw [← hloc' u, hl, ← hloc t, Function.update_eq_self]
  · rw [← hloc t] at hstep
    exact ⟨_, _, Run.single (s := (⟨s.sh.value.toInt, loc⟩ : St T ℤ SemLoc)) hstep, inv_step hi hs, rfl, hloc'⟩

variable {v₀ : BitVec 32} {todo : T → List Op} {as : List (T × Choice T)} {tr : List (Event T)}

/-- **Refinement.** Every run without overflow is a run of the counting semaphore with the same events and the same
value. -/
theorem zem_simulates (h : RunIf prog Fits (start v₀ todo) as tr s) :
    ∃ bs u, Run semaphore (semStart v₀.toInt todo) bs tr u ∧ Refines s u := by
  have h0 : Refines (start v₀ todo) (semStart v₀.toInt todo) := ⟨Inv.start v₀ todo, rfl, fun _ => rfl⟩
  have hsim := h.simulate (Q := semaphore) some h0 fun s u t c z l es hr hf hs => by
    simpa using refines_step hr hf hs
  simpa using hsim

/-- the step of a thread in `zem_wait` that changes the value -/
theorem wait_decrements (h : Inv s) {p : WaitPc} (hl : (s.loc t).running = some (.wait p))
    (hs : prog t c s.sh (s.loc t) = some (z, l, es)) (hv : z.value ≠ s.sh.value) :
    0 < s.sh.value.toInt ∧ z.value.toInt = s.sh.value.toInt - 1 ∧ es = [.took t] := by
  have hf : (s.loc t).fits := by
    intro v hp
    rw [hl] at hp
    cases hp
  have hsem : (s.loc t).sem.running = some (.begun .wait) ∨ (s.loc t).sem.running = some (.done .wait) := by
    rcases p with _ | _ | _ | _ | _ | v | _ <;> simp [Loc.sem, hl, Pc.sem]
  have hv' : z.value.toInt ≠ s.sh.value.toInt := fun he => hv (BitVec.eq_of_toInt_eq he)
  rcases sem_step h hf hs with ⟨-, hz, -⟩ | hstep
  · exact absurd hz hv
  · generalize (s.loc t).sem = sl at hstep hsem
    obtain ⟨r, todo⟩ := sl
    rcases hsem with rfl | rfl
    · simp only [semaphore] at hstep
      split_ifs at hstep with hpos
      simp only [Option.some.injEq, Prod.mk.injEq] at hstep
      exact ⟨hpos, hstep.1.symm, hstep.2.2.symm⟩
    · simp only [semaphore, Option.some.injEq, Prod.mk.injEq] at hstep
      exact absurd hstep.1.symm hv'

/-- **The semaphore is a counting semaphore.** In every run in which no post increments the largest `int` the value is
the initial value plus the posts minus the waits that have decremented, and it never drops below `min v₀ 0`. A wait
changes the value only in a state in which it is positive, and then decrements it. The run is a run of the counting
semaphore with the same events. -/
theorem zem_semaphore (v₀ : BitVec 32) (todo : T → List Op) {as : List (T × Choice T)} {tr : List (Event T)}
    {s : St T (ZemT T) Loc} (h : RunIf prog Fits (start v₀ todo) as tr s) :
    (s.sh.value.toInt = v₀.toInt + posts tr - tooks tr ∧ min v₀.toInt 0 ≤ s.sh.value.toInt) ∧
    (∀ t p c z l es, (s.loc t).running = some (.wait p) → prog t c s.sh (s.loc t) = some (z, l, es) →
      z.value ≠ s.sh.value → 0 < s.sh.value.toInt ∧ z.value.toInt = s.sh.value.toInt - 1 ∧ es = [.took t]) ∧
    ∃ bs u, Run semaphore (semStart v₀.toInt todo) bs tr u ∧ u.sh = s.sh.value.toInt ∧
      ∀ t, u.loc t = (s.loc t).sem := by
  obtain ⟨bs, u, hu, hi, hv, hloc⟩ := zem_simulates h
  refine ⟨?_, ?_, bs, u, hu, hv, hloc⟩
  · rw [← hv]
    exact semaphore_value hu
  · intro t p c z l es hp hs hne
    exact wait_decrements hi hp hs hne

/-- two threads: `zem_wait` falls asleep, `zem_post` wakes it up, and it takes the unit -/
def woken : List (Fin 2 × Choice (Fin 2)) :=
  (List.replicate 4 (0 : Fin 2) ++ List.replicate 6 1 ++ List.replicate 5 0).map fun t => (t, ⟨{0}, false⟩)

theorem zem_semaphore_two : ∃ s : St (Fin 2) (ZemT (Fin 2)) Loc, ∃ tr,
    RunIf prog Fits (start 0 fun t => if t = 0 then [.wait] else [.post]) woken tr s ∧
    tr = [.call 0 .wait, .call 1 .post, .posted 1, .ret 1 .post, .took 0, .ret 0 .wait] ∧
    s.sh.value.toInt = 0 + posts tr - tooks tr := by
  obtain ⟨s, tr, h, htr⟩ := execIf_any_runIf prog Fits (start 0 fun t : Fin 2 => if t = 0 then [.wait] else [.post])
    woken (fun _ tr => tr = [.call 0 .wait, .call 1 .post, .posted 1, .ret 1 .post, .took 0, .ret 0 .wait])
    (by decide +kernel)
  exact ⟨s, tr, h, htr, (zem_semaphore 0 _ h).1.1⟩

/-- the largest `int`, and a post: the value is the smallest one -/
theorem not_zem_semaphore :
    ¬ ∀ (v₀ : BitVec 32) (todo : Fin 1 → List Op) (as : List (Fin 1 × Choice (Fin 1))) (tr : List (Event (Fin 1)))
      (s : St (Fin 1) (ZemT (Fin 1)) Loc), Run prog (start v₀ todo) as tr s →
        s.sh.value.toInt = v₀.toInt + posts tr - tooks tr ∧ min v₀.toInt 0 ≤ s.sh.value.toInt := by
  intro hall
  obtain ⟨s, tr, h, hv, hv'⟩ := exec_any_run prog (start (BitVec.intMax 32) fun _ : Fin 1 => [.post])
    (List.replicate 6 (0, ⟨∅, false⟩)) (fun s tr => s.sh.value = BitVec.intMin 32 ∧ posts tr = 1) (by decide +kernel)
  have hlow := (hall _ _ _ _ _ h).2
  rw [hv] at hlow
  exact absurd hlow (by decide)

/-! ## Wake-ups -/

instance (l : Loc) : Decidable (Sleeps l) := inferInstanceAs (Decidable (l.running = some (.wait .asleep)))

/-- in `pthread_cond_wait` and awake again -/
def Woken (s : St T (ZemT T) Loc) (t : T) : Prop := Sleeps (s.loc t) ∧ t ∉ s.sh.cond

instance (s : St T (ZemT T) Loc) : DecidablePred (Woken s) := fun t =>
  inferInstanceAs (Decidable (Sleeps (s.loc t) ∧ t ∉ s.sh.cond))

/-- the points of `zem_wait` at which a thread is about to take a unit -/
def WaitPc.takes : WaitPc → Bool
  | .test | .load | .store _ => true
  | .lock | .condWait | .asleep | .unlock => false

/-- with the mutex, and about to take a unit or to wake somebody up -/
def OnTheWay (l : Loc) : Prop :=
  match l.running with
  | some (.wait p) => p.takes = true
  | some (.post p) => p = .signal
  | none => False

instance : DecidablePred OnTheWay := fun l => by
  unfold OnTheWay
  split <;> infer_instance

omit [DecidableEq T] in
/-- who is on the way has the mutex -/
theorem Inv.lock_of_onTheWay (h : Inv s) (hw : OnTheWay (s.loc t)) : s.sh.lock = some t := by
  refine (h.guards t).2 ?_
  unfold OnTheWay at hw
  unfold inLock
  split at hw
  · constructor <;> rintro rfl <;> cases hw
  · rw [hw]
    exact PostPc.noConfusion
  · cases hw

/-- a thread that covers a unit, or sleeps -/
def covers (l : Loc) : ℕ := if Sleeps l ∨ OnTheWay l then 1 else 0

variable [Fintype T]

/-- the threads that are woken and have not locked the mutex yet -/
def wokens (s : St T (ZemT T) Loc) : Finset T := Finset.univ.filter (Woken s)

/-- while somebody sleeps, every unit is covered by a woken thread or one on the way -/
def Covered (s : St T (ZemT T) Loc) : Prop :=
  s.sh.cond.Nonempty → s.sh.value.toInt + s.sh.cond.card ≤ total covers s.loc

/-- the threads that count: asleep, woken, on the way -/
theorem Inv.total_covers (h : Inv s) :
    total covers s.loc = s.sh.cond.card + (wokens s).card + total (fun l => if OnTheWay l then 1 else 0) s.loc := by
  have hw : ∀ l, covers l = (if Sleeps l then 1 else 0) + if OnTheWay l then 1 else 0 := by
    intro l
    have hex : Sleeps l → ¬ OnTheWay l := by
      intro hl
      simp [OnTheWay, WaitPc.takes, show l.running = _ from hl]
    unfold covers
    by_cases h1 : Sleeps l
    · simp [h1, hex h1]
    · simp [h1]
  have hsl : Finset.univ.filter (fun t => Sleeps (s.loc t)) = s.sh.cond ∪ wokens s := by
    ext t
    by_cases ht : t ∈ s.sh.cond
    · simp [wokens, Woken, ht, h.sleeps t ht]
    · simp [wokens, Woken, ht]
  have hdis : Disjoint s.sh.cond (wokens s) := by
    rw [Finset.disjoint_right]
    intro t ht
    exact (Finset.mem_filter.1 ht).2.2
  have hcard := Finset.card_union_of_disjoint hdis
  rw [← hsl, Finset.card_filter] at hcard
  unfold total
  rw [Finset.sum_congr rfl fun t _ => hw (s.loc t), Finset.sum_add_distrib, hcard]

/-- without units there is nothing to cover -/
theorem Inv.covered (h : Inv s) (hv : s.sh.value.toInt ≤ 0) : Covered s := by
  intro _
  have := h.total_covers
  omega

/-- a step that puts nobody to sleep, and covers what it adds -/
theorem Covered.move (h : Covered s) (hn : z.cond.Nonempty → s.sh.cond.Nonempty ∧
    z.value.toInt + z.cond.card + covers (s.loc t) ≤ s.sh.value.toInt + s.sh.cond.card + covers l) :
    Covered (s.move t z l) := by
  intro hne
  obtain ⟨h1, h2⟩ := hn hne
  have h3 := h h1
  have h4 := total_update covers s.loc t l
  rw [St.move_sh, St.move_loc]
  omega

theorem covered_wait (h : Inv s) (hk : Covered s) {p : WaitPc} {todo : List Op}
    (hl : s.loc t = ⟨some (.wait p), todo⟩) {r : Option WaitPc} (hs : zemWait t c s.sh p = some (z, r)) :
    Covered (s.move t z ⟨r.map .wait, todo⟩) := by
  have hi := h.wait hl hs
  have hr := h.reads t
  rw [hl] at hr
  rcases p with _ | _ | _ | _ | _ | v | _
  case lock =>
    obtain ⟨-, hz⟩ := lock_step hs
    cases hz
    exact hk.move fun hn => ⟨hn, by simp [hl, covers, Sleeps, OnTheWay, WaitPc.takes]⟩
  case test =>
    simp only [zemWait] at hs
    split_ifs at hs with hv
    · cases hs
      exact hi.covered hv
    · cases hs
      exact hk.move fun hn => ⟨hn, by simp [hl, covers, Sleeps, OnTheWay, WaitPc.takes]⟩
  case condWait =>
    cases hs
    exact hi.covered hr
  case asleep =>
    simp only [zemWait] at hs
    split_ifs at hs with hc hsp
    · cases hs
      refine hk.move fun hn => ⟨⟨t, hc⟩, ?_⟩
      have := Finset.card_erase_le (s := s.sh.cond) (a := t)
      simp [hl, covers, Sleeps]
      omega
    · obtain ⟨-, hz⟩ := lock_step hs
      cases hz
      exact hk.move fun hn => ⟨hn, by simp [hl, covers, Sleeps, OnTheWay, WaitPc.takes]⟩
  case load =>
    cases hs
    exact hk.move fun hn => ⟨hn, by simp [hl, covers, Sleeps, OnTheWay, WaitPc.takes]⟩
  case store =>
    cases hs
    obtain ⟨rfl, hv⟩ := hr
    exact hk.move fun hn => ⟨hn, by rw [toInt_sub_one hv]; simp [hl, covers, Sleeps, OnTheWay, WaitPc.takes]⟩
  case unlock =>
    cases hs
    exact hk.move fun hn => ⟨hn, by simp [hl, covers, Sleeps, OnTheWay, WaitPc.takes]⟩

theorem covered_post (h : Inv s) (hk : Covered s) {p : PostPc} {todo : List Op}
    (hl : s.loc t = ⟨some (.post p), todo⟩) {r : Option PostPc} (hs : zemPost t c s.sh p = some (z, r)) :
    Covered (s.move t z ⟨r.map .post, todo⟩) := by
  have hr := h.reads t
  rw [hl] at hr
  rcases p with _ | _ | v | _ | _
  case lock =>
    obtain ⟨-, hz⟩ := lock_step hs
    cases hz
    exact hk.move fun hn => ⟨hn, by simp [hl, covers, Sleeps, OnTheWay]⟩
  case load =>
    cases hs
    exact hk.move fun hn => ⟨hn, by simp [hl, covers, Sleeps, OnTheWay]⟩
  case store =>
    cases hs
    cases hr
    refine hk.move fun hn => ⟨hn, ?_⟩
    have hinc := toInt_add_one_le s.sh.value
    have hbefore : covers (s.loc t) = 0 := by simp [hl, covers, Sleeps, OnTheWay]
    have hafter : covers ⟨some (.post .signal), todo⟩ = 1 := by simp [covers, Sleeps, OnTheWay]
    change (s.sh.value + 1).toInt + s.sh.cond.card + (covers (s.loc t) : ℤ) ≤
      _ + _ + (covers ⟨some (.post .signal), todo⟩ : ℤ)
    omega
  case signal =>
    obtain ⟨cond, hc, hz⟩ := Option.map_eq_some_iff.1 hs
    cases hz
    obtain ⟨hsub, hlt⟩ := signal_eq_some hc
    refine hk.move fun hn => ?_
    have hn' := hn.mono hsub
    refine ⟨hn', ?_⟩
    have := hlt hn'
    simp [hl, covers, Sleeps, OnTheWay]
    omega
  case unlock =>
    cases hs
    exact hk.move fun hn => ⟨hn, by simp [hl, covers, Sleeps, OnTheWay]⟩

theorem covered_step (h : Inv s) (hk : Covered s) (hs : prog t c s.sh (s.loc t) = some (z, l, es)) :
    Covered (s.move t z l) := by
  rcases prog_step hs with ⟨op, todo, hl, rfl, rfl, -⟩ | ⟨p, r, todo, hl, hw, rfl, -⟩ | ⟨p, r, todo, hl, hw, rfl, -⟩
  · refine hk.move fun hn => ⟨hn, ?_⟩
    rcases op with _ | _ <;> simp [hl, covers, Sleeps, OnTheWay, WaitPc.takes, Op.enter]
  · exact covered_wait h hk hl hw
  · exact covered_post h hk hl hw

theorem run_covered (h : Run prog (start v₀ todo) as tr s) : Inv s ∧ Covered s := by
  refine h.inv (I := fun s => Inv s ∧ Covered s) ⟨Inv.start v₀ todo, ?_⟩ ?_
  · intro hn
    simp [start, zemInit] at hn
  · intro s t c z l es ⟨hi, hk⟩ hs
    exact ⟨inv_step hi hs, covered_step hi hk hs⟩

/-- **No wake-up is lost.** In every state that a run reaches: if the mutex is free and a thread is asleep, at least
`value` threads are woken and have not locked the mutex yet. So whenever there is a unit and a thread asleep, some
thread is woken, or has the mutex and is about to take a unit or to signal; with the mutex free some thread is
woken. -/
theorem zem_no_lost_wakeup (v₀ : BitVec 32) (todo : T → List Op) {as : List (T × Choice T)} {tr : List (Event T)}
    {s : St T (ZemT T) Loc} (h : Run prog (start v₀ todo) as tr s) :
    (s.sh.lock = none → s.sh.cond.Nonempty → s.sh.value.toInt ≤ (wokens s).card) ∧
    (0 < s.sh.value.toInt → s.sh.cond.Nonempty → ∃ t, Woken s t ∨ s.sh.lock = some t ∧ OnTheWay (s.loc t)) ∧
    (∀ t ∈ s.sh.cond, Sleeps (s.loc t)) := by
  obtain ⟨hi, hk⟩ := run_covered h
  have hcount := hi.total_covers
  refine ⟨?_, ?_, hi.sleeps⟩
  · intro hf hn
    have h1 := hk hn
    have h0 : total (fun l => if OnTheWay l then 1 else 0) s.loc = 0 := by
      refine total_eq_zero fun t => if_neg fun hw => ?_
      rw [hi.lock_of_onTheWay hw] at hf
      cases hf
    omega
  · intro hv hn
    have h1 := hk hn
    by_cases hw : (wokens s).Nonempty
    · obtain ⟨t, ht⟩ := hw
      exact ⟨t, .inl (Finset.mem_filter.1 ht).2⟩
    · have h0 : (wokens s).card = 0 := by simpa using hw
      obtain ⟨t, ht⟩ := exists_of_total_pos (fun l => if OnTheWay l then 1 else 0) s.loc (by omega)
      have hw' : OnTheWay (s.loc t) := by
        by_contra hno
        simp [hno] at ht
      exact ⟨t, .inr ⟨hi.lock_of_onTheWay hw', hw'⟩⟩

/-- two threads fall asleep, and the third posts and wakes the first of them -/
def oneWoken : List (Fin 3 × Choice (Fin 3)) :=
  (List.replicate 4 (0 : Fin 3) ++ List.replicate 4 1 ++ List.replicate 6 2).map fun t => (t, ⟨{0}, false⟩)

theorem zem_no_lost_wakeup_three : ∃ s : St (Fin 3) (ZemT (Fin 3)) Loc, ∃ tr,
    Run prog (start 0 fun t => if t = 2 then [.post] else [.wait]) oneWoken tr s ∧
    (s.sh.lock = none ∧ 1 ∈ s.sh.cond ∧ s.sh.value = 1) ∧ s.sh.value.toInt ≤ (wokens s).card := by
  obtain ⟨s, tr, h, hs⟩ := exec_any_run prog (start 0 fun t : Fin 3 => if t = 2 then [.post] else [.wait]) oneWoken
    (fun s _ => s.sh.lock = none ∧ 1 ∈ s.sh.cond ∧ s.sh.value = 1) (by decide)
  exact ⟨s, tr, h, hs, (zem_no_lost_wakeup 0 _ h).1 hs.1 ⟨1, hs.2.1⟩⟩

end OsPractice.Zemaphore
