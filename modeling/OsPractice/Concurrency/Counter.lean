/-
A counter that threads count up to a limit (`concurrency/counter.c`). In each round of the loop a thread locks the
mutex, tests the value, and adds one or leaves the loop.

The test, the load and the store of `value` are one step each. `LIMIT` is a `double`, and an `int` is compared with it
without rounding. There are any number of threads; one that has not been created yet is one that has not taken a step.
The measurement of the time is left out.

The events of a run are its increments, each with the thread that made it.

Results:
- `inv_step`: what a step keeps of the value, the increments and the mutex;
- `run_increments`: any threads may make the increments, in any order;
- `counter_reaches_limit`: the value never exceeds the limit, and is at the limit in the end.
-/
import OsPractice.Core.Interleave
import OsPractice.Core.Monitor

namespace OsPractice.Counter

open Interleave Monitor

/-! ## The program -/

def LIMIT : ℕ := 10 ^ 6

/-- `counter_t` -/
structure CounterT (T : Type) where
  value : BitVec 32
  /-- `mut` -/
  mutex : Mutex T

def counter_init (T : Type) : CounterT T := ⟨0, none⟩

/-- where a thread is in `incloop` -/
inductive Pc where
  | lock
  | test
  | load
  | store (value : BitVec 32)
  | unlock
  | unlockBreak
  | left
  deriving DecidableEq, Repr

variable {T : Type}

def incloop : Prog T Unit (CounterT T) Pc T := fun t _ c pc =>
  match pc with
  | .lock => (lock t c.mutex).map fun m => ({ c with mutex := m }, .test, [])
  | .test => some (c, if LIMIT ≤ c.value.toInt then .unlockBreak else .load, [])
  | .load => some (c, .store c.value, [])
  | .store value => some ({ c with value := value + 1 }, .unlock, [t])
  | .unlock => some ({ c with mutex := none }, .lock, [])
  | .unlockBreak => some ({ c with mutex := none }, .left, [])
  | .left => none

/-- `test_for_n_threads`, once the counter has been initialised -/
def start : St T (CounterT T) Pc := ⟨counter_init T, fun _ => .lock⟩

/-! ## The value -/

/-- the thread has locked the mutex -/
def Inside : Pc → Prop
  | .lock | .left => False
  | _ => True

/-- what a thread knows of the number `n` of increments and of the value -/
def At (n : ℕ) (value : BitVec 32) : Pc → Prop
  | .load => n < LIMIT
  | .store v => n < LIMIT ∧ v = value
  | .unlockBreak | .left => n = LIMIT
  | _ => True

/-- `tr` are the increments -/
structure Inv (tr : List T) (s : St T (CounterT T) Pc) : Prop where
  mutex : Guards Inside s.sh.mutex s.loc
  value : s.sh.value.toInt = tr.length
  le : tr.length ≤ LIMIT
  threads : ∀ t, At tr.length s.sh.value (s.loc t)

variable {tr es : List T} {s : St T (CounterT T) Pc} {t : T} {c : CounterT T} {pc : Pc}

theorem inv_start : Inv [] (start : St T (CounterT T) Pc) where
  mutex := Guards.start fun _ => id
  value := rfl
  le := Nat.zero_le _
  threads _ := trivial

/-- a value below the limit is far from the greatest `int` -/
theorem toInt_succ {v : BitVec 32} {n : ℕ} (hv : v.toInt = n) (hn : n < LIMIT) : (v + 1).toInt = (n + 1 : ℕ) := by
  have hlimit : (LIMIT : ℤ) < 2 ^ 31 := by decide
  have hone : (1 : BitVec 32).toInt = 1 := rfl
  rw [BitVec.toInt_add, hv, hone, Int.bmod_eq_of_le (by omega) (by omega)]
  rfl

variable [DecidableEq T]

/-- a step that leaves the value alone -/
theorem Inv.keep (h : Inv tr s) {m : Mutex T} (hmutex : Guards Inside m (Function.update s.loc t pc))
    (hat : At tr.length s.sh.value pc) : Inv tr (s.move t { s.sh with mutex := m } pc) where
  mutex := hmutex
  value := h.value
  le := h.le
  threads := s.forall_move (p := fun _ pc => At tr.length s.sh.value pc) _ hat fun u _ => h.threads u

theorem inv_step (h : Inv tr s) (hs : incloop t () s.sh (s.loc t) = some (c, pc, es)) :
    Inv (tr ++ es) (s.move t c pc) := by
  have hat := h.threads t
  have hmutex := h.mutex
  cases hl : s.loc t with
  | lock =>
    rw [hl] at hs
    obtain ⟨hfree, hc⟩ := lock_step hs
    cases hc
    rw [hfree] at hmutex
    have henter : Guards Inside (some t) (Function.update s.loc t .test) := hmutex.enter trivial
    simpa using h.keep henter trivial
  | test =>
    rw [hl] at hs
    cases hs
    have hstay : ∀ pc, Inside pc → Guards Inside s.sh.mutex (Function.update s.loc t pc) := fun pc hpc =>
      hmutex.stay (by rw [hl]; exact iff_of_true hpc trivial)
    have hvalue := h.value
    have hle := h.le
    split_ifs with htest
    · have hlimit : tr.length = LIMIT := by omega
      simpa using h.keep (hstay .unlockBreak trivial) hlimit
    · have hless : tr.length < LIMIT := by omega
      simpa using h.keep (hstay .load trivial) hless
  | load =>
    rw [hl] at hs hat
    cases hs
    have hstay := hmutex.stay (t := t) (l := .store s.sh.value) (by rw [hl]; exact Iff.rfl)
    simpa using h.keep hstay ⟨hat, rfl⟩
  | store v =>
    rw [hl] at hs hat
    cases hs
    obtain ⟨hless, rfl⟩ := hat
    have hlen : (tr ++ [t]).length = tr.length + 1 := List.length_append
    refine ⟨hmutex.stay (by rw [hl]; exact Iff.rfl), ?_, by omega, ?_⟩
    · rw [St.move_sh, hlen]
      exact toInt_succ h.value hless
    · -- no other thread is between its lock and its unlock, or has left the loop
      refine s.forall_move (p := fun _ pc => At (tr ++ [t]).length (s.sh.value + 1) pc) _ trivial fun u hu => ?_
      have hout := hmutex.outside (t := t) (by rw [hl]; trivial) hu
      have hat' := h.threads u
      cases hlu : s.loc u with
      | lock => trivial
      | left =>
        rw [hlu] at hat'
        exact absurd hat' hless.ne
      | _ =>
        rw [hlu] at hout
        exact absurd trivial hout
  | unlock =>
    rw [hl] at hs
    cases hs
    have hleave : Guards Inside none (Function.update s.loc t .lock) := hmutex.leave (by rw [hl]; trivial) id
    simpa using h.keep hleave trivial
  | unlockBreak =>
    rw [hl] at hs hat
    cases hs
    have hleave : Guards Inside none (Function.update s.loc t .left) := hmutex.leave (by rw [hl]; trivial) id
    simpa using h.keep hleave hat
  | left =>
    rw [hl] at hs
    cases hs

theorem run_inv {as : List (T × Unit)} (h : Run incloop start as tr s) : Inv tr s :=
  h.inv_trace inv_start fun _ _ _ _ _ _ _ hi hs => inv_step hi hs

/-- **The limit.** For any number of threads and every order of their steps: the value is never above the limit, and no
thread leaves the loop before the value is at the limit. When all have left it, there have been as many increments as
the limit says, and the mutex is free. -/
theorem counter_reaches_limit [Nonempty T] {as : List (T × Unit)} (h : Run incloop start as tr s) :
    s.sh.value.toInt ≤ LIMIT ∧ (∀ t, s.loc t = .left → s.sh.value.toInt = LIMIT) ∧
      ((∀ t, s.loc t = .left) → s.sh.value.toInt = LIMIT ∧ tr.length = LIMIT ∧ s.sh.mutex = none) := by
  have hi := run_inv h
  have hleft : ∀ t, s.loc t = .left → tr.length = LIMIT := by
    intro t ht
    have hat := hi.threads t
    rwa [ht] at hat
  rw [hi.value]
  refine ⟨mod_cast hi.le, fun t ht => by rw [hleft t ht], fun hall => ?_⟩
  obtain ⟨t⟩ := ‹Nonempty T›
  refine ⟨by rw [hleft t (hall t)], hleft t (hall t), ?_⟩
  by_contra hlocked
  obtain ⟨u, hu⟩ := Option.ne_none_iff_exists'.1 hlocked
  have hinside := (hi.mutex u).1 hu
  rw [hall u] at hinside
  exact hinside

/-! ## Complete runs -/

omit [DecidableEq T] in
/-- a round of the loop that adds one -/
theorem round_alone (t : T) {v : BitVec 32} (hv : v.toInt < LIMIT) :
    Alone incloop t ⟨v, none⟩ .lock [t] ⟨v + 1, none⟩ .lock := by
  have hlock : incloop t () ⟨v, none⟩ .lock = some (⟨v, some t⟩, .test, []) := rfl
  have htest : incloop t () ⟨v, some t⟩ .test = some (⟨v, some t⟩, .load, []) := by
    simp only [incloop, if_neg (not_le.2 hv)]
  have hload : incloop t () ⟨v, some t⟩ .load = some (⟨v, some t⟩, .store v, []) := rfl
  have hstore : incloop t () ⟨v, some t⟩ (.store v) = some (⟨v + 1, some t⟩, .unlock, [t]) := rfl
  have hunlock : incloop t () ⟨v + 1, some t⟩ .unlock = some (⟨v + 1, none⟩, .lock, []) := rfl
  exact .silent hlock (.silent htest (.silent hload (.head hstore (.single hunlock))))

omit [DecidableEq T] in
/-- a thread finds the value at the limit and leaves -/
theorem leave_alone (t : T) {v : BitVec 32} (hv : v.toInt = LIMIT) :
    Alone incloop t ⟨v, none⟩ .lock [] ⟨v, none⟩ .left := by
  have hlock : incloop t () ⟨v, none⟩ .lock = some (⟨v, some t⟩, .test, []) := rfl
  have htest : incloop t () ⟨v, some t⟩ .test = some (⟨v, some t⟩, .unlockBreak, []) := by
    simp only [incloop, if_pos hv.ge]
  have hunlock : incloop t () ⟨v, some t⟩ .unlockBreak = some (⟨v, none⟩, .left, []) := rfl
  exact .silent hlock (.silent htest (.single hunlock))

/-- no thread is in a round -/
def atLock (v : BitVec 32) : St T (CounterT T) Pc := ⟨⟨v, none⟩, fun _ => .lock⟩

/-- the threads of a list make the increments in its order -/
theorem run_rounds {v : BitVec 32} {k : ℕ} (hv : v.toInt = k) (L : List T) (hL : k + L.length ≤ LIMIT) :
    ∃ as v', Run incloop (atLock v) as L (atLock v') ∧ v'.toInt = (k + L.length : ℕ) := by
  induction L generalizing v k with
  | nil => exact ⟨[], v, .nil, hv⟩
  | cons t L ih =>
    rw [List.length_cons] at hL
    obtain ⟨as, v', hrun, hv'⟩ := ih (toInt_succ hv (by omega)) (by omega)
    have hround : Alone incloop t (atLock v : St T _ _).sh ((atLock v : St T _ _).loc t) [t] ⟨v + 1, none⟩ .lock :=
      round_alone t (by omega)
    obtain ⟨bs, hround⟩ := hround.run
    have hmove : (atLock v).move t ⟨v + 1, none⟩ .lock = atLock (v + 1) := by
      simp [St.move, atLock]
    rw [hmove] at hround
    refine ⟨bs ++ as, v', hround.append hrun, ?_⟩
    rw [hv', List.length_cons]
    push_cast
    ring

/-- **Any threads may make the increments.** -/
theorem run_increments [Fintype T] {L : List T} (hL : L.length = LIMIT) :
    ∃ as s, Run incloop start as L s ∧ ∀ t, s.loc t = .left := by
  obtain ⟨as, v, hrun, hv⟩ := run_rounds (v := 0) (k := 0) rfl L (by omega)
  rw [zero_add, hL] at hv
  obtain ⟨bs, s, hleave, -, hall, -⟩ := run_each Finset.univ.toList (Finset.nodup_toList _)
    (fun _ => (⟨v, none⟩ : CounterT T)) (fun _ => Pc.lock) (fun _ => .left) (fun _ => [])
    (fun _ t _ _ => leave_alone t hv) (s := atLock v) rfl fun _ _ => rfl
  have h := hrun.append hleave
  rw [List.flatMap_eq_nil_iff.2 fun _ _ => rfl, List.append_nil] at h
  exact ⟨as ++ bs, s, h, fun t => hall t (Finset.mem_toList.2 (Finset.mem_univ t))⟩

/-- two threads make the increments in turn -/
theorem counter_reaches_limit_two :
    ∃ as s, Run incloop (start : St (Fin 2) (CounterT (Fin 2)) Pc) as (List.replicate (LIMIT / 2) [0, 1]).flatten s ∧
      (∀ t, s.loc t = .left) ∧ s.sh.value.toInt = LIMIT ∧ s.sh.mutex = none := by
  have hlen : (List.replicate (LIMIT / 2) [(0 : Fin 2), 1]).flatten.length = LIMIT := by
    rw [List.length_flatten, List.map_replicate, List.sum_replicate]
    rfl
  obtain ⟨as, s, h, hall⟩ := run_increments hlen
  obtain ⟨hvalue, -, hmutex⟩ := (counter_reaches_limit h).2.2 hall
  exact ⟨as, s, h, hall, hvalue, hmutex⟩

end OsPractice.Counter
