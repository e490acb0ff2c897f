/-
The test program of the counter (`concurrency/counter.c`): for 1, 2, 4, ..., 128 threads `main` starts a counter at 0,
creates the threads, which run `incloop`, joins them and prints the value.

Each test has a counter of its own and is over before the next one begins. The measurement of the time is left out.

Results:
- `incloop_length`, `incloop_live`: the threads take a bounded number of steps, and never wait for each other for good;
- `testEnds_iff`: what a test has shown when it has ended;
- `counter_prints_limit`: every test ends, and the lines of the program.
-/
import OsPractice.Core.ForkJoin
import OsPractice.Concurrency.Counter

namespace OsPractice.CounterMain

open Interleave Monitor ForkJoin
open Counter (CounterT Pc LIMIT counter_init incloop Inside)

/-! ## Model -/

inductive Output (n : ℕ) where
  | increment (t : Fin n)
  | value (v : ℤ) (nthreads : ℕ)
  deriving DecidableEq, Repr

variable {n : ℕ}

/-- `incloop`, called by the threads of `test_for_n_threads` -/
def thread : Prog (Fin n) Unit (CounterT (Fin n)) Pc (Output n) := fun t c counter pc =>
  (incloop t c counter pc).map fun r => (r.1, r.2.1, r.2.2.map .increment)

/-- what `printtime` prints of the counter -/
def printtime (nthreads : ℕ) (c : CounterT (Fin n)) : List (Output n) := [.value c.value.toInt nthreads]

def test_for_n_threads (nthreads : ℕ) :
    Program nthreads Unit (CounterT (Fin nthreads)) Pc EndPc (Output nthreads) where
  thread := thread
  returned pc := pc = .left
  before := []
  after := showEnd (printtime nthreads)
  begin := .shows

def testStart (nthreads : ℕ) :
    St (Option (Fin nthreads)) (Process nthreads (CounterT (Fin nthreads))) (Loc Pc EndPc) :=
  (test_for_n_threads nthreads).start (counter_init _) fun _ => .lock

/-- a test has come to its end, with what it has shown -/
def TestEnds (nthreads : ℕ) (out : List (Output nthreads)) : Prop :=
  ∃ as s, Run (test_for_n_threads nthreads).prog (testStart nthreads) as out s ∧
    ∀ t, ¬ CanStep (test_for_n_threads nthreads).prog s t

/-- the tests of `main` -/
def tests : List ℕ := [1, 2, 4, 8, 16, 32, 64, 128]

/-- the line of a test: the value and the number of threads -/
def lines (out : List (Output n)) : List (ℤ × ℕ) := out.filterMap fun
  | .increment _ => none
  | .value v nthreads => some (v, nthreads)

/-- `main` has run these tests and printed these lines -/
inductive MainEnds : List ℕ → List (ℤ × ℕ) → Prop where
  | nil : MainEnds [] []
  | cons {nthreads : ℕ} {out : List (Output nthreads)} {ns : List ℕ} {ls : List (ℤ × ℕ)} (h : TestEnds nthreads out)
      (hs : MainEnds ns ls) : MainEnds (nthreads :: ns) (lines out ++ ls)

/-! ## The loop -/

section Loop

variable {T : Type} [DecidableEq T] {as : List (T × Unit)} {tr : List T} {s : St T (CounterT T) Pc}

/-- the steps of the round that a thread is in -/
def done : Pc → ℕ
  | .lock => 0
  | .test => 1
  | .load => 2
  | .store _ => 3
  | .unlock => 0
  | .unlockBreak => 2
  | .left => 3

/-- the step of a round that has added one, and is still to be made -/
def owed : Pc → ℕ
  | .lock => 0
  | .test => 0
  | .load => 0
  | .store _ => 0
  | .unlock => 1
  | .unlockBreak => 0
  | .left => 0

/-- a round that adds one has five steps, the last round three -/
theorem run_steps [Fintype T] (h : Run incloop Counter.start as tr s) :
    as.length + total owed s.loc = 5 * tr.length + total done s.loc := by
  induction h with
  | nil => simp [Counter.start, total, owed, done]
  | @snoc as tr s h t c x pc es hs ih =>
    have ho := total_update owed s.loc t pc
    have hd := total_update done s.loc t pc
    simp only [List.length_append, List.length_singleton, St.move_loc]
    cases hl : s.loc t with
    | lock =>
      rw [hl] at hs ho hd
      obtain ⟨-, hc⟩ := lock_step hs
      cases hc
      simp only [owed, done, List.length_nil] at ho hd ⊢
      omega
    | test =>
      rw [hl] at hs ho hd
      cases hs
      split_ifs at ho hd ⊢ <;> simp only [owed, done, List.length_nil] at ho hd ⊢ <;> omega
    | left =>
      rw [hl] at hs
      cases hs
    | _ =>
      rw [hl] at hs ho hd
      cases hs
      simp only [owed, done, List.length_nil, List.length_singleton] at ho hd ⊢
      omega

theorem incloop_length [Fintype T] (h : Run incloop Counter.start as tr s) :
    as.length ≤ 5 * LIMIT + 3 * Fintype.card T := by
  have hsteps := run_steps h
  have hle := (Counter.run_inv h).le
  have hdone : total done s.loc ≤ ∑ _t : T, 3 := Finset.sum_le_sum fun t _ => by
    cases s.loc t <;> simp only [done] <;> omega
  simp only [Finset.sum_const, Finset.card_univ, smul_eq_mul] at hdone
  omega

omit [DecidableEq T] in
theorem canStep_inside {t : T} (h : Inside (s.loc t)) : CanStep incloop s t := by
  refine ⟨(), ?_⟩
  cases hl : s.loc t with
  | lock =>
    rw [hl] at h
    exact h.elim
  | left =>
    rw [hl] at h
    exact h.elim
  | _ => rfl

/-- a thread that has not left can step, or the one that has the mutex can -/
theorem incloop_live (h : Run incloop Counter.start as tr s) {t : T} (ht : s.loc t ≠ .left) :
    ∃ t, CanStep incloop s t := by
  by_cases hin : Inside (s.loc t)
  · exact ⟨t, canStep_inside hin⟩
  · have hlock : s.loc t = .lock := by
      cases hl : s.loc t with
      | lock => rfl
      | left => exact absurd hl ht
      | _ =>
        rw [hl] at hin
        exact absurd trivial hin
    cases hm : s.sh.mutex with
    | none => exact ⟨t, (), by rw [hlock]; simp [incloop, lock, hm]⟩
    | some u => exact ⟨u, canStep_inside (((Counter.run_inv h).mutex u).1 hm)⟩

end Loop

/-! ## A test -/

section Test

variable {as : List (Fin n × Unit)} {tr : List (Output n)} {L : List (Fin n)} {s : St (Fin n) (CounterT (Fin n)) Pc}

/-- the threads of a test run the loop -/
theorem thread_run (h : Run thread Counter.start as tr s) :
    ∃ L, Run incloop Counter.start as L s ∧ tr = L.map .increment := by
  induction h with
  | nil => exact ⟨[], .nil, rfl⟩
  | @snoc as tr s h t c x pc es hs ih =>
    obtain ⟨L, hrun, rfl⟩ := ih
    obtain ⟨⟨x', pc', us⟩, hu, he⟩ := Option.map_eq_some_iff.1 hs
    cases he
    exact ⟨L ++ us, hrun.snoc hu, by rw [List.map_append]⟩

theorem run_thread (h : Run incloop Counter.start as L s) : Run thread Counter.start as (L.map .increment) s := by
  induction h with
  | nil => exact .nil
  | @snoc as L s h t c x pc us hs ih =>
    rw [List.map_append]
    refine ih.snoc ?_
    simp only [thread]
    rw [hs]
    rfl

theorem thread_returned (t : Fin n) (c : Unit) (x : CounterT (Fin n)) (pc : Pc)
    (h : (test_for_n_threads n).returned pc = true) : (test_for_n_threads n).thread t c x pc = none := by
  obtain rfl : pc = .left := by simpa [test_for_n_threads] using h
  rfl

theorem thread_live (bs : List (Fin n × Unit)) (tr : List (Output n)) (u : St (Fin n) (CounterT (Fin n)) Pc)
    (h : Run (test_for_n_threads n).thread ⟨counter_init _, fun _ => .lock⟩ bs tr u)
    (ht : ∃ t, (test_for_n_threads n).returned (u.loc t) = false) :
    ∃ t, CanStep (test_for_n_threads n).thread u t := by
  obtain ⟨t, ht⟩ := ht
  obtain ⟨L, hrun, -⟩ := thread_run h
  obtain ⟨v, c, hv⟩ := incloop_live (t := t) hrun (by simpa [test_for_n_threads] using ht)
  refine ⟨v, c, ?_⟩
  simp only [test_for_n_threads, thread, Option.isSome_map]
  exact hv

theorem test_length {as : List (Option (Fin n) × Unit)} {out : List (Output n)}
    {s : St (Option (Fin n)) (Process n (CounterT (Fin n))) (Loc Pc EndPc)}
    (h : Run (test_for_n_threads n).prog (testStart n) as out s) : as.length ≤ 5 * LIMIT + 6 * n + 4 := by
  have hthreads : ∀ bs tr u, Run (test_for_n_threads n).thread ⟨counter_init _, fun _ => .lock⟩ bs tr u →
      bs.length ≤ 5 * LIMIT + 3 * n := by
    intro bs tr u hrun
    obtain ⟨L, hL, -⟩ := thread_run hrun
    have hlen := incloop_length hL
    rwa [Fintype.card_fin] at hlen
  have hlen := run_length_le hthreads
    (fun bs tr u _ _ cs tr' w hw => length_showEnd (hw : Run (showEnd _) _ _ _ _)) h
  omega

/-- the value at the end of a test -/
def endValue (nthreads : ℕ) : ℕ := if nthreads = 0 then 0 else LIMIT

/-- **A test that has ended.** The threads have made as many increments as the limit says, and the value that is printed
is the limit; any threads may have made them, in any order. -/
theorem testEnds_iff (nthreads : ℕ) (out : List (Output nthreads)) :
    TestEnds nthreads out ↔ ∃ L : List (Fin nthreads), L.length = endValue nthreads ∧
      out = L.map .increment ++ [.value (endValue nthreads) nthreads] := by
  unfold TestEnds testStart
  rw [complete_iff_last rfl rfl thread_returned thread_live]
  constructor
  · rintro ⟨bs, tr, u, h, hall, rfl⟩
    obtain ⟨L, hL, rfl⟩ := thread_run h
    have hi := Counter.run_inv hL
    have hlen : L.length = endValue nthreads := by
      unfold endValue
      split_ifs with h0
      · subst h0
        exact List.length_eq_zero_iff.2 (List.eq_nil_iff_forall_not_mem.2 fun t => t.elim0)
      · have hleft : u.loc ⟨0, Nat.pos_of_ne_zero h0⟩ = .left := by
          simpa [test_for_n_threads] using hall ⟨0, Nat.pos_of_ne_zero h0⟩
        have hat := hi.threads ⟨0, Nat.pos_of_ne_zero h0⟩
        rw [hleft] at hat
        exact hat
    refine ⟨L, hlen, ?_⟩
    rw [← hlen, ← hi.value]
    rfl
  · rintro ⟨L, hlen, rfl⟩
    unfold endValue at hlen ⊢
    split_ifs at hlen ⊢ with h0
    · subst h0
      obtain rfl : L = [] := List.length_eq_zero_iff.1 hlen
      exact ⟨[], [], Counter.start, .nil, fun t => t.elim0, rfl⟩
    · obtain ⟨as, s, hrun, hall⟩ := Counter.run_increments hlen
      refine ⟨as, _, s, run_thread hrun, fun t => by simp [test_for_n_threads, hall t], ?_⟩
      rw [← hlen, ← (Counter.run_inv hrun).value]
      rfl

end Test

theorem lines_test (L : List (Fin n)) (v : ℤ) (nthreads : ℕ) :
    lines (L.map .increment ++ [.value v nthreads]) = [(v, nthreads)] := by
  simp [lines, List.filterMap_append, List.filterMap_map]

/-- the tests of a list one after another -/
theorem mainEnds_iff (ns : List ℕ) (ls : List (ℤ × ℕ)) :
    MainEnds ns ls ↔ ls = ns.map fun n => ((endValue n : ℤ), n) := by
  constructor
  · intro h
    induction h with
    | nil => rfl
    | cons h _ ih =>
      obtain ⟨L, -, rfl⟩ := (testEnds_iff _ _).1 h
      rw [ih, lines_test]
      rfl
  · rintro rfl
    induction ns with
    | nil => exact .nil
    | cons n ns ih =>
      have hL : ∃ L : List (Fin n), L.length = endValue n := by
        rcases Nat.eq_zero_or_pos n with rfl | hn
        · exact ⟨[], rfl⟩
        · exact ⟨List.replicate (endValue n) ⟨0, hn⟩, List.length_replicate⟩
      obtain ⟨L, hL⟩ := hL
      have h := MainEnds.cons ((testEnds_iff n _).2 ⟨L, hL, rfl⟩) ih
      rw [lines_test] at h
      exact h

/-- **The program.** Every test ends, whatever its number of threads, and `main` prints the limit once for each test: it
does come to its end, and prints nothing else. -/
theorem counter_prints_limit (ls : List (ℤ × ℕ)) :
    (∀ n as out s, Run (test_for_n_threads n).prog (testStart n) as out s → as.length ≤ 5 * LIMIT + 6 * n + 4) ∧
    (MainEnds tests ls ↔ ls = tests.map fun n => ((LIMIT : ℤ), n)) := by
  refine ⟨fun n as out s h => test_length h, ?_⟩
  rw [mainEnds_iff]
  rfl

end OsPractice.CounterMain
