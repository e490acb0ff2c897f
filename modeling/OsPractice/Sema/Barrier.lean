/-
The barrier (`sema/barrier.c`): a counter `waiters` under the semaphore `lock`, and a semaphore `sem` on which all but
the last of `threshold` callers wait. The last one posts `sem` `threshold` times, resets the counter and returns.

Each `sem_wait`, each `sem_post` and each access to a field is one step. A thread makes a given number of calls.

The loop posts one token for each caller, the last one included, but the last caller never waits: a token stays behind
(`Inv.full`: once `threshold` calls have arrived, tokens, returned calls and what the poster still owes add up to
`threshold + 1`). In the first round that is harmless. In the next one it lets a call return too early.

Results:
- `run_inv`: the invariant, for any numbers of calls;
- `run_length`: a run is no longer than its calls allow;
- `one_round`: with one call from each of `N` threads nobody returns before all have arrived, one thread posts, and no
  thread is left behind.
-/
import OsPractice.Core.Interleave
import OsPractice.Core.Monitor

namespace OsPractice.Barrier

open Interleave Semaphore

/-! ## Model -/

structure BarrierT where
  sem : ℕ
  lock : ℕ
  threshold : ℕ
  waiters : ℕ
  deriving DecidableEq, Repr

def barrierInit (numThreads : ℕ) : BarrierT := { sem := 0, lock := 1, threshold := numThreads, waiters := 0 }

/-- the points of `barrier` -/
inductive Point where
  | sleep
  | waitLock
  | loadWaiters
  | storeWaiters (tmp : ℕ)
  | testThreshold
  | forTest (i : ℕ)
  | postSem (i : ℕ)
  | resetWaiters
  | postLockLast
  | postLock
  | waitSem
  deriving DecidableEq, Repr

/-- the next point of a call, `none` being the return -/
def barrier (b : BarrierT) : Point → Option (BarrierT × Option Point)
  | .sleep => some (b, some .waitLock)
  | .waitLock => (semWait b.lock).map fun v => ({ b with lock := v }, some .loadWaiters)
  | .loadWaiters => some (b, some (.storeWaiters b.waiters))
  | .storeWaiters tmp => some ({ b with waiters := tmp + 1 }, some .testThreshold)
  | .testThreshold => some (b, some (if b.waiters = b.threshold then .forTest 0 else .postLock))
  | .forTest i => some (b, some (if i < b.threshold then .postSem i else .resetWaiters))
  | .postSem i => some ({ b with sem := semPost b.sem }, some (.forTest (i + 1)))
  | .resetWaiters => some ({ b with waiters := 0 }, some .postLockLast)
  | .postLockLast => some ({ b with lock := semPost b.lock }, none)
  | .postLock => some ({ b with lock := semPost b.lock }, some .waitSem)
  | .waitSem => (semWait b.sem).map fun v => ({ b with sem := v }, none)

/-- the calls that a thread has still to make, and where it is in the one it has made -/
structure Local where
  calls : ℕ
  pc : Option Point
  deriving DecidableEq, Repr

inductive Event (T : Type) where
  /-- `waiters++` has been executed -/
  | arrived (t : T)
  /-- the branch that posts has been taken -/
  | posting (t : T)
  | returned (t : T)
  deriving DecidableEq, Repr

variable {T : Type}

/-- what a step from `p` to `q` shows -/
def shows (t : T) : Point → Option Point → List (Event T)
  | .storeWaiters _, _ => [.arrived t]
  | .testThreshold, some (.forTest _) => [.posting t]
  | _, none => [.returned t]
  | _, _ => []

def prog : Prog T Unit BarrierT Local (Event T) := fun t _ b l =>
  match l.pc with
  | none => if 0 < l.calls then some (b, ⟨l.calls - 1, some .sleep⟩, []) else none
  | some p => (barrier b p).map fun r => (r.1, { l with pc := r.2 }, shows t p r.2)

def start (N : ℕ) (calls : T → ℕ) : St T BarrierT Local := ⟨barrierInit N, fun t => ⟨calls t, none⟩⟩

/-- the calls that have executed `waiters++` -/
def arrived (tr : List (Event T)) : ℕ := tr.countP fun
  | .arrived _ => true
  | _ => false

def posting (tr : List (Event T)) : ℕ := tr.countP fun
  | .posting _ => true
  | _ => false

def returned (tr : List (Event T)) : ℕ := tr.countP fun
  | .returned _ => true
  | _ => false

@[simp] theorem arrived_append (tr es : List (Event T)) : arrived (tr ++ es) = arrived tr + arrived es :=
  List.countP_append

@[simp] theorem posting_append (tr es : List (Event T)) : posting (tr ++ es) = posting tr + posting es :=
  List.countP_append

@[simp] theorem returned_append (tr es : List (Event T)) : returned (tr ++ es) = returned tr + returned es :=
  List.countP_append

@[simp] theorem counts_nil :
    arrived ([] : List (Event T)) = 0 ∧ posting ([] : List (Event T)) = 0 ∧ returned ([] : List (Event T)) = 0 :=
  ⟨rfl, rfl, rfl⟩

@[simp] theorem counts_arrived (t : T) :
    arrived [.arrived t] = 1 ∧ posting [.arrived t] = 0 ∧ returned [.arrived t] = 0 := ⟨rfl, rfl, rfl⟩

@[simp] theorem counts_posting (t : T) :
    arrived [.posting t] = 0 ∧ posting [.posting t] = 1 ∧ returned [.posting t] = 0 := ⟨rfl, rfl, rfl⟩

@[simp] theorem counts_returned (t : T) :
    arrived [.returned t] = 0 ∧ posting [.returned t] = 0 ∧ returned [.returned t] = 1 := ⟨rfl, rfl, rfl⟩

/-! ## Who is where -/

/-- the calls that have not returned yet -/
def unreturned (l : Local) : ℕ :=
  match l.pc with
  | none => l.calls
  | some _ => l.calls + 1

/-- between `sem_wait(&b->lock)` and the post of `lock` -/
def inSection (l : Local) : ℕ :=
  match l.pc with
  | none => 0
  | some .sleep => 0
  | some .waitLock => 0
  | some .waitSem => 0
  | some _ => 1

/-- the calls that have not arrived yet -/
def pending (l : Local) : ℕ :=
  match l.pc with
  | some .sleep => l.calls + 1
  | some .waitLock => l.calls + 1
  | some .loadWaiters => l.calls + 1
  | some (.storeWaiters _) => l.calls + 1
  | _ => l.calls

/-- arrived and not yet returned -/
def inFlight (l : Local) : ℕ :=
  match l.pc with
  | none => 0
  | some .sleep => 0
  | some .waitLock => 0
  | some .loadWaiters => 0
  | some (.storeWaiters _) => 0
  | some _ => 1

def atTest (l : Local) : ℕ := if l.pc = some .testThreshold then 1 else 0

/-- inside the branch that posts -/
def inBranch (l : Local) : ℕ :=
  match l.pc with
  | some (.forTest _) => 1
  | some (.postSem _) => 1
  | some .resetWaiters => 1
  | some .postLockLast => 1
  | _ => 0

/-- the posts of `sem` that the last caller has still to make, and its own return -/
def owed (N : ℕ) (l : Local) : ℕ :=
  match l.pc with
  | some .testThreshold => N + 1
  | some (.forTest i) => N + 1 - i
  | some (.postSem i) => N + 1 - i
  | some .resetWaiters => 1
  | some .postLockLast => 1
  | _ => 0

/-! ## The invariant -/

/-- what a thread's point says about its registers -/
def Register (N waiters : ℕ) : Option Point → Prop
  | some (.storeWaiters tmp) => tmp = waiters
  | some (.forTest i) => i ≤ N
  | some (.postSem i) => i < N
  | _ => True

variable [Fintype T]

structure Inv (N : ℕ) (calls : T → ℕ) (tr : List (Event T)) (s : St T BarrierT Local) : Prop where
  threshold : s.sh.threshold = N
  mutex : s.sh.lock + total inSection s.loc = 1
  register : ∀ t, Register N s.sh.waiters (s.loc t).pc
  caller : ∀ t, unreturned (s.loc t) ≤ calls t
  pending : arrived tr + total pending s.loc = ∑ t, calls t
  flight : returned tr + total inFlight s.loc = arrived tr
  before : arrived tr < N →
    s.sh.sem = 0 ∧ s.sh.waiters = arrived tr ∧ total inBranch s.loc = 0 ∧ returned tr = 0 ∧ posting tr = 0
  full : arrived tr = N →
    s.sh.sem + returned tr + total (owed N) s.loc = N + 1 ∧ posting tr + total atTest s.loc = 1 ∧
      (0 < total atTest s.loc → s.sh.waiters = N)

theorem inSection_le (l : Local) : inSection l ≤ 1 := by
  unfold inSection
  split <;> omega

theorem outside_section {l : Local} (h : inSection l = 0) (N : ℕ) :
    inBranch l = 0 ∧ atTest l = 0 ∧ owed N l = 0 := by
  unfold inSection at h
  split at h <;> simp_all [inBranch, atTest, owed]

theorem inv_init {N : ℕ} (hN : 0 < N) (calls : T → ℕ) : Inv N calls [] (start N calls) := by
  refine ⟨rfl, ?_, fun _ => trivial, fun _ => le_rfl, ?_, ?_, ?_, ?_⟩
  · simp [total, start, barrierInit, inSection]
  · simp [total, start, Barrier.pending, arrived]
  · simp [total, start, inFlight, arrived, returned]
  · intro _
    exact ⟨rfl, rfl, total_eq_zero fun _ => rfl, rfl, rfl⟩
  · intro h
    have : arrived ([] : List (Event T)) = 0 := rfl
    omega

variable [DecidableEq T]

/-- while `t` is inside the section it is the only one at the test or in the branch -/
theorem only_inside {N : ℕ} {calls : T → ℕ} {tr : List (Event T)} {s : St T BarrierT Local} (h : Inv N calls tr s)
    {t : T}
    (ht : inSection (s.loc t) = 1) :
    total inBranch s.loc = inBranch (s.loc t) ∧ total atTest s.loc = atTest (s.loc t) ∧
      total (owed N) s.loc = owed N (s.loc t) := by
  have hout : ∀ u, u ≠ t → inSection (s.loc u) = 0 := fun u hu => by
    have h1 := add_le_total inSection s.loc hu
    have h2 := h.mutex
    omega
  refine ⟨total_eq_single t ?_, total_eq_single t ?_, total_eq_single t ?_⟩
  · intro u hu
    exact (outside_section (hout u hu) N).1
  · intro u hu
    exact (outside_section (hout u hu) N).2.1
  · intro u hu
    exact (outside_section (hout u hu) N).2.2

/-- what a step of `t` has to do to keep the invariant, in terms of what it changes -/
theorem Inv.move {N : ℕ} {calls : T → ℕ} {tr es : List (Event T)} {s : St T BarrierT Local} {t : T} {b : BarrierT}
    {l l' : Local} (h : Inv N calls tr s) (hl : s.loc t = l) (hthr : b.threshold = s.sh.threshold)
    (hmutex : b.lock + inSection l' = s.sh.lock + inSection l) (hreg : Register N b.waiters l'.pc)
    (hwaiters : b.waiters = s.sh.waiters ∨ inSection l = 1) (hcaller : unreturned l' ≤ unreturned l)
    (hpending : arrived es + Barrier.pending l' = Barrier.pending l)
    (hflight : returned es + inFlight l' = arrived es + inFlight l)
    (hbefore : arrived tr + arrived es < N → b.sem = 0 ∧ b.waiters = arrived tr + arrived es ∧
      total inBranch s.loc + inBranch l' = inBranch l ∧ returned tr + returned es = 0 ∧ posting tr + posting es = 0)
    (hfull : arrived tr + arrived es = N →
      b.sem + (returned tr + returned es) + (total (owed N) s.loc + owed N l') = N + 1 + owed N l ∧
      posting tr + posting es + (total atTest s.loc + atTest l') = 1 + atTest l ∧
      (atTest l < total atTest s.loc + atTest l' → b.waiters = N)) :
    Inv N calls (tr ++ es) (s.move t b l') := by
  subst hl
  have hI := total_update inSection s.loc t l'
  have hP := total_update Barrier.pending s.loc t l'
  have hF := total_update inFlight s.loc t l'
  have hB := total_update inBranch s.loc t l'
  have hA := total_update atTest s.loc t l'
  have hO := total_update (owed N) s.loc t l'
  have hm := h.mutex
  have hp := h.pending
  have hf := h.flight
  refine ⟨hthr.trans h.threshold, ?_, ?_, ?_, ?_, ?_, ?_, ?_⟩
  · simp only [St.move_sh, St.move_loc]
    omega
  · refine s.forall_move (p := fun _ l => Register N b.waiters l.pc) b hreg fun u hu => ?_
    have hru := h.register u
    rcases hwaiters with h1 | h1
    · rw [h1]; exact hru
    · -- `t` is inside the section, so `u` has not loaded `waiters`
      have h2 := add_le_total inSection s.loc hu
      cases hpc : (s.loc u).pc with
      | none => trivial
      | some p =>
        rw [hpc] at hru
        cases p with
        | storeWaiters tmp =>
          have h3 : inSection (s.loc u) = 1 := by simp only [inSection, hpc]
          omega
        | _ => exact hru
  · exact s.forall_move (p := fun u l => unreturned l ≤ calls u) b (hcaller.trans (h.caller t)) fun u _ => h.caller u
  · simp only [arrived_append, St.move_loc]
    omega
  · simp only [arrived_append, returned_append, St.move_loc]
    omega
  · intro hlt
    simp only [arrived_append, returned_append, posting_append, St.move_loc, St.move_sh] at hlt ⊢
    obtain ⟨h1, h2, h3, h4, h5⟩ := hbefore hlt
    exact ⟨h1, h2, by omega, h4, h5⟩
  · intro heq
    simp only [arrived_append, returned_append, posting_append, St.move_loc, St.move_sh] at heq ⊢
    obtain ⟨h1, h2, h3⟩ := hfull heq
    exact ⟨by omega, by omega, fun h4 => h3 (by omega)⟩

theorem inv_step {N : ℕ} {calls : T → ℕ} {tr es : List (Event T)} {s : St T BarrierT Local} {t : T} {c : Unit}
    {b : BarrierT} {l : Local} (h : Inv N calls tr s) (hs : prog t c s.sh (s.loc t) = some (b, l, es)) :
    Inv N calls (tr ++ es) (s.move t b l) := by
  have hin := only_inside h (t := t)
  have hreg := h.register t
  have hbefore := h.before
  have hfull := h.full
  have hthr := h.threshold
  generalize hl : s.loc t = l0 at hin hreg hs
  obtain ⟨k, pc⟩ := l0
  cases pc with
  | none =>
    simp only [prog] at hs
    split_ifs at hs with hk
    cases hs
    refine h.move hl rfl rfl trivial (.inl rfl) ?_ ?_ ?_ ?_ ?_
    all_goals simp [unreturned, inFlight, Barrier.pending, inBranch, atTest, owed]
    all_goals omega
  | some p =>
    obtain ⟨⟨b', q⟩, hb, he⟩ := Option.map_eq_some_iff.1 hs
    cases he
    cases p with
    | sleep =>
      cases hb
      refine h.move hl rfl rfl trivial (.inl rfl) le_rfl ?_ ?_ ?_ ?_
      all_goals simp [inFlight, Barrier.pending, inBranch, atTest, owed, shows]
      all_goals omega
    | waitLock =>
      obtain ⟨v, hv, he⟩ := wait_step hb
      cases he
      refine h.move hl rfl hv.symm trivial (.inl rfl) le_rfl ?_ ?_ ?_ ?_
      all_goals simp [inFlight, Barrier.pending, inBranch, atTest, owed, shows]
      all_goals omega
    | loadWaiters =>
      cases hb
      refine h.move hl rfl rfl rfl (.inl rfl) le_rfl ?_ ?_ ?_ ?_
      all_goals simp [inFlight, Barrier.pending, inBranch, atTest, owed, shows]
      all_goals omega
    | storeWaiters tmp =>
      cases hb
      obtain ⟨h1, h2, h3⟩ := hin rfl
      obtain rfl : tmp = s.sh.waiters := hreg
      refine h.move hl rfl rfl trivial (.inr rfl) le_rfl ?_ ?_ ?_ ?_
      all_goals simp [inFlight, Barrier.pending, inBranch, atTest, owed, shows] at h1 h2 h3 ⊢
      all_goals omega
    | testThreshold =>
      cases hb
      obtain ⟨h1, h2, h3⟩ := hin rfl
      split_ifs with ht
      · refine h.move hl rfl rfl (Nat.zero_le _) (.inl rfl) le_rfl ?_ ?_ ?_ ?_
        all_goals simp [inFlight, Barrier.pending, inBranch, atTest, owed, shows] at h1 h2 h3 ⊢
        all_goals omega
      · refine h.move hl rfl rfl trivial (.inl rfl) le_rfl ?_ ?_ ?_ ?_
        all_goals simp [inFlight, Barrier.pending, inBranch, atTest, owed, shows] at h1 h2 h3 ⊢
        all_goals omega
    | forTest i =>
      cases hb
      obtain ⟨h1, h2, h3⟩ := hin rfl
      have hi : i ≤ N := hreg
      split_ifs with ht
      · refine h.move hl rfl rfl ?_ (.inl rfl) le_rfl ?_ ?_ ?_ ?_
        · exact Nat.lt_of_lt_of_eq ht hthr
        all_goals simp [inFlight, Barrier.pending, inBranch, atTest, owed, shows] at h1 h2 h3 ⊢
        all_goals omega
      · refine h.move hl rfl rfl trivial (.inl rfl) le_rfl ?_ ?_ ?_ ?_
        all_goals simp [inFlight, Barrier.pending, inBranch, atTest, owed, shows] at h1 h2 h3 ⊢
        all_goals omega
    | postSem i =>
      cases hb
      obtain ⟨h1, h2, h3⟩ := hin rfl
      have hi : i < N := hreg
      refine h.move hl rfl rfl hi (.inl rfl) le_rfl ?_ ?_ ?_ ?_
      all_goals simp [inFlight, Barrier.pending, inBranch, atTest, owed, shows] at h1 h2 h3 ⊢
      all_goals omega
    | resetWaiters =>
      cases hb
      obtain ⟨h1, h2, h3⟩ := hin rfl
      refine h.move hl rfl rfl trivial (.inr rfl) le_rfl ?_ ?_ ?_ ?_
      all_goals simp [inFlight, Barrier.pending, inBranch, atTest, owed, shows] at h1 h2 h3 ⊢
      all_goals omega
    | postLockLast =>
      cases hb
      obtain ⟨h1, h2, h3⟩ := hin rfl
      refine h.move hl rfl rfl trivial (.inl rfl) ?_ ?_ ?_ ?_ ?_
      all_goals simp [unreturned, inFlight, Barrier.pending, inBranch, atTest, owed, shows] at h1 h2 h3 ⊢
      all_goals omega
    | postLock =>
      cases hb
      obtain ⟨h1, h2, h3⟩ := hin rfl
      refine h.move hl rfl rfl trivial (.inl rfl) le_rfl ?_ ?_ ?_ ?_
      all_goals simp [inFlight, Barrier.pending, inBranch, atTest, owed, shows] at h1 h2 h3 ⊢
      all_goals omega
    | waitSem =>
      obtain ⟨v, hv, he⟩ := wait_step hb
      cases he
      refine h.move hl rfl rfl trivial (.inl rfl) ?_ ?_ ?_ ?_ ?_
      all_goals simp [unreturned, inFlight, Barrier.pending, inBranch, atTest, owed, shows]
      all_goals omega

theorem run_inv {N : ℕ} (hN : 0 < N) {calls : T → ℕ} {as : List (T × Unit)} {tr : List (Event T)}
    {s : St T BarrierT Local} (h : Run prog (start N calls) as tr s) : Inv N calls tr s :=
  h.inv_trace (I := Inv N calls) (inv_init hN calls) fun _ _ _ _ _ _ _ hi hs => inv_step hi hs

/-! ## Progress -/

omit [Fintype T] [DecidableEq T] in
theorem canStep_of_inSection {s : St T BarrierT Local} {t : T} (h : inSection (s.loc t) = 1) : CanStep prog s t := by
  refine ⟨(), ?_⟩
  generalize s.loc t = l at h
  obtain ⟨k, pc⟩ := l
  cases pc with
  | none => cases h
  | some p => cases p <;> first | rfl | cases h

omit [DecidableEq T] in
/-- nobody can step: the calls that have not returned wait for a token, and there is none -/
theorem stuck {N : ℕ} {calls : T → ℕ} {tr : List (Event T)} {s : St T BarrierT Local} (h : Inv N calls tr s)
    (hno : ∀ t, ¬ CanStep prog s t) :
    ∀ t, inSection (s.loc t) = 0 ∧ Barrier.pending (s.loc t) = unreturned (s.loc t) - 1 ∧
      (unreturned (s.loc t) ≠ 0 → s.sh.sem = 0) := by
  have hin : ∀ t, inSection (s.loc t) = 0 := fun t => by
    have h1 := inSection_le (s.loc t)
    by_contra h2
    exact hno t (canStep_of_inSection (by omega))
  have hlock : s.sh.lock = 1 := by
    have := h.mutex
    rw [total_eq_zero hin] at this
    omega
  intro t
  have ht := hin t
  have hs := not_canStep (hno t) ()
  generalize hl : s.loc t = l at ht hs
  obtain ⟨k, pc⟩ := l
  cases pc with
  | none =>
    simp only [prog] at hs
    split_ifs at hs with hk
    obtain rfl : k = 0 := by omega
    exact ⟨rfl, rfl, fun h0 => absurd rfl h0⟩
  | some p =>
    simp only [prog, Option.map_eq_none_iff] at hs
    cases p with
    | sleep => cases hs
    | waitLock =>
      have : s.sh.lock = 0 := by simpa [barrier] using hs
      omega
    | waitSem => exact ⟨rfl, rfl, fun _ => by simpa [barrier] using hs⟩
    | _ => cases ht

/-- the steps that a thread can still make at most -/
def fuel (N : ℕ) (l : Local) : ℕ :=
  l.calls * (2 * N + 9) +
    match l.pc with
    | none => 0
    | some .sleep => 2 * N + 8
    | some .waitLock => 2 * N + 7
    | some .loadWaiters => 2 * N + 6
    | some (.storeWaiters _) => 2 * N + 5
    | some .testThreshold => 2 * N + 4
    | some (.forTest i) => 2 * (N - i) + 3
    | some (.postSem i) => 2 * (N - (i + 1)) + 4
    | some .resetWaiters => 2
    | some .postLockLast => 1
    | some .postLock => 2
    | some .waitSem => 1

omit [Fintype T] [DecidableEq T] in
theorem fuel_step {N : ℕ} {t : T} {c : Unit} {b b' : BarrierT} {l l' : Local} {es : List (Event T)}
    (h : prog t c b l = some (b', l', es)) (hN : b.threshold = N) : fuel N l' < fuel N l := by
  obtain ⟨k, pc⟩ := l
  cases pc with
  | none =>
    simp only [prog] at h
    split_ifs at h with hk
    cases h
    obtain ⟨k, rfl⟩ := Nat.exists_eq_add_one_of_ne_zero (Nat.pos_iff_ne_zero.1 hk)
    simp only [fuel, Nat.add_sub_cancel, Nat.add_mul, Nat.one_mul]
    omega
  | some p =>
    obtain ⟨⟨b', q⟩, hb, he⟩ := Option.map_eq_some_iff.1 h
    cases he
    cases p with
    | waitLock =>
      obtain ⟨v, hv, he⟩ := Option.map_eq_some_iff.1 hb
      cases he
      simp only [fuel]
      omega
    | waitSem =>
      obtain ⟨v, hv, he⟩ := Option.map_eq_some_iff.1 hb
      cases he
      simp only [fuel]
      omega
    | testThreshold =>
      cases hb
      split_ifs <;> simp only [fuel] <;> omega
    | forTest i =>
      cases hb
      split_ifs <;> simp only [fuel] <;> omega
    | _ =>
      cases hb
      simp only [fuel]
      omega

/-- **Termination.** The length of a run is bounded by the number of calls. -/
theorem run_length {N : ℕ} (hN : 0 < N) {calls : T → ℕ} {as : List (T × Unit)} {tr : List (Event T)}
    {s : St T BarrierT Local} (h : Run prog (start N calls) as tr s) :
    as.length + total (fuel N) s.loc ≤ (∑ t, calls t) * (2 * N + 9) := by
  induction h with
  | nil => simp [total, start, fuel, Finset.sum_mul]
  | @snoc as tr s h t c b l es hs ih =>
    have hf := fuel_step hs (run_inv hN h).threshold
    have ht := total_update (fuel N) s.loc t l
    simp only [List.length_append, List.length_singleton, St.move_loc]
    omega

/-! ## One round -/

omit [Fintype T] [DecidableEq T] in
theorem pending_step {t : T} {c : Unit} {b b' : BarrierT} {l l' : Local} {es : List (Event T)}
    (h : prog t c b l = some (b', l', es)) : Barrier.pending l' = Barrier.pending l ∨ .arrived t ∈ es := by
  obtain ⟨k, pc⟩ := l
  cases pc with
  | none =>
    simp only [prog] at h
    split_ifs at h with hk
    cases h
    exact .inl (Nat.sub_add_cancel hk)
  | some p =>
    obtain ⟨⟨b', q⟩, hb, he⟩ := Option.map_eq_some_iff.1 h
    cases he
    cases p with
    | storeWaiters tmp => exact .inr List.mem_cons_self
    | waitLock =>
      obtain ⟨v, -, he⟩ := Option.map_eq_some_iff.1 hb
      cases he
      exact .inl rfl
    | waitSem =>
      obtain ⟨v, -, he⟩ := Option.map_eq_some_iff.1 hb
      cases he
      exact .inl rfl
    | testThreshold =>
      cases hb
      split_ifs <;> exact .inl rfl
    | forTest i =>
      cases hb
      split_ifs <;> exact .inl rfl
    | _ =>
      cases hb
      exact .inl rfl

omit [Fintype T] in
/-- a call of `u` that is no longer pending has arrived -/
theorem arrived_of_not_pending {N : ℕ} {calls : T → ℕ} {as : List (T × Unit)} {tr : List (Event T)}
    {s : St T BarrierT Local} (h : Run prog (start N calls) as tr s) (u : T)
    (hu : Barrier.pending (s.loc u) < calls u) : .arrived u ∈ tr := by
  refine h.inv_trace (I := fun tr s => Barrier.pending (s.loc u) < calls u → .arrived u ∈ tr)
    (fun h0 => absurd h0 (Nat.lt_irrefl _)) ?_ hu
  intro tr s t c b l es hi hs hlt
  by_cases hut : u = t
  · subst hut
    rw [St.move_loc, Function.update_self] at hlt
    rcases pending_step hs with h1 | h1
    · exact List.mem_append_left _ (hi (h1 ▸ hlt))
    · exact List.mem_append_right _ h1
  · rw [St.move_loc, Function.update_of_ne hut] at hlt
    exact List.mem_append_left _ (hi hlt)

/-- **One round.** `N` threads make one call each. If a call has returned then every thread has executed `waiters++`;
the posting branch is taken by at most one thread, and by one when a call has returned; while a call has not returned
some thread can step; and no run is longer than `N * (2 * N + 9)` steps. -/
theorem one_round {N : ℕ} (hN : 0 < N) {as : List (Fin N × Unit)} {tr : List (Event (Fin N))}
    {s : St (Fin N) BarrierT Local} (h : Run prog (start N fun _ => 1) as tr s) :
    (0 < returned tr → ∀ t, .arrived t ∈ tr) ∧ (posting tr ≤ 1 ∧ (0 < returned tr → posting tr = 1)) ∧
    ((∃ t, unreturned (s.loc t) ≠ 0) → ∃ t, CanStep prog s t) ∧ as.length ≤ N * (2 * N + 9) := by
  have hi := run_inv hN h
  have hp := hi.pending
  have hf := hi.flight
  simp only [Finset.sum_const, Finset.card_univ, Fintype.card_fin, smul_eq_mul, Nat.mul_one] at hp
  have hall : 0 < returned tr → arrived tr = N := fun hr => by
    have := hi.before
    omega
  refine ⟨?_, ⟨?_, ?_⟩, ?_, ?_⟩
  · intro hr t
    have h1 := hall hr
    have h2 := le_total Barrier.pending s.loc t
    exact arrived_of_not_pending h t (by omega)
  · have h1 := hi.before
    have h2 := hi.full
    omega
  · intro hr
    obtain ⟨h1, h2, -⟩ := hi.full (hall hr)
    -- a thread at the test would owe all posts, and no call could have returned
    have h3 : total atTest s.loc = 0 := total_eq_zero fun t => by
      by_contra h0
      have h4 := le_total (owed N) s.loc t
      have h5 : (s.loc t).pc = some .testThreshold := by
        by_contra hc
        exact h0 (if_neg hc)
      simp only [owed, h5] at h4
      omega
    omega
  · intro ht
    by_contra hno
    push Not at hno
    have hst := stuck hi hno
    obtain ⟨t, ht⟩ := ht
    have hsem := (hst t).2.2 ht
    have h1 : total Barrier.pending s.loc = 0 := total_eq_zero fun u => by
      have h2 := (hst u).2.1
      have h3 := hi.caller u
      omega
    have h2 : total (owed N) s.loc = 0 := total_eq_zero fun u => (outside_section (hst u).1 N).2.2
    obtain ⟨h3, -, -⟩ := hi.full (by omega)
    omega
  · have := run_length hN h
    simp only [Finset.sum_const, Finset.card_univ, Fintype.card_fin, smul_eq_mul, Nat.mul_one] at this
    omega

/-- two threads: the second one has posted and returned, the first one still waits -/
theorem one_round_two :
    ∃ as tr s, Run prog (start 2 fun _ : Fin 2 => 1) as tr s ∧ returned tr = 1 ∧ (∀ t, .arrived t ∈ tr) ∧
      posting tr = 1 ∧ ∃ t, CanStep prog s t := by
  obtain ⟨s, tr, h, hr, hu⟩ := exec_any_run prog (start 2 fun _ : Fin 2 => 1)
    ((List.replicate 7 (0 : Fin 2) ++ List.replicate 13 1).map fun t => (t, ()))
    (fun s tr => returned tr = 1 ∧ unreturned (s.loc 0) ≠ 0) (by decide +kernel)
  obtain ⟨h1, h2, h3, -⟩ := one_round (by decide) h
  exact ⟨_, tr, s, h, hr, h1 (by omega), h2.2 (by omega), h3 ⟨0, hu⟩⟩

end OsPractice.Barrier
