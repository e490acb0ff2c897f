/-
The program of the approximate counter (`concurrency/approximate_counter.c`): `main` creates the threads, each makes its
updates of one with its own id, joins them and prints what `get` returns.

`LIMIT` is a `double`; its quotient by `NUM_THREADS` has no remainder. The measurement of the time is left out.

The threads lock a slot before `glock`, and nothing while they have `glock`, so they never wait for each other for good
(`prog_live`).

Results:
- `prog_live`, `prog_length`: the threads come to an end;
- `program_value`: what a program of this kind prints, whatever its threads do;
- `program_prints`: the number that the program prints.
-/
import OsPractice.Core.ForkJoin
import OsPractice.Concurrency.ApproximateCounterUnit

namespace OsPractice.ApproximateCounterMain

open Interleave Monitor ForkJoin
open ApproximateCounter hiding start

/-! ## Model -/

/-- the threads of the process: `none` is `main` -/
abbrev Thread (n : ℕ) : Type := Option (Fin n)

inductive Output (n : ℕ) where
  | call (e : Event (Thread n))
  /-- `Counter value: %d` -/
  | value (v : ℤ)
  deriving DecidableEq, Repr

variable {n : ℕ}

/-- the calls of the loop -/
def worker (loops : ℕ) (threadID : Fin n) : List Op := List.replicate loops (.update threadID 1)

def thread : Prog (Fin n) Unit (CounterT (Thread n)) Loc (Output n) := fun t c m l =>
  (prog (some t) c m l).map fun r => (r.1, r.2.1, r.2.2.map .call)

/-- points of `print_time` -/
inductive PrintPc where
  | get (p : GetPc)
  | print (v : ℤ)
  | returned
  deriving DecidableEq, Repr

/-- what `get` returns from its last point -/
def result : GetPc → ℤ
  | .unlock val => val
  | _ => 0

def print_time : Prog Unit Unit (CounterT (Thread n)) PrintPc (Output n) := fun _ _ m pc =>
  match pc with
  | .get p => (ApproximateCounter.get none m p).map fun r => (r.1, r.2.elim (.print (result p)) .get, [])
  | .print v => some (m, .returned, [.value v])
  | .returned => none

/-- `main` with `n` threads of `loops` updates -/
def program (n : ℕ) : Program n Unit (CounterT (Thread n)) Loc PrintPc (Output n) where
  thread := thread
  returned l := l = ⟨none, []⟩
  before := []
  after := print_time
  begin := .get .lock

def programStart (n loops : ℕ) (threshold : ℤ) :
    St (Option (Fin n)) (Process n (CounterT (Thread n))) (ForkJoin.Loc Loc PrintPc) :=
  (program n).start (init threshold) fun t => ⟨none, worker loops t⟩

def LIMIT : ℕ := 10 ^ 8

def NUM_THREADS : ℕ := 8

/-- the numbers that have been printed -/
def values (out : List (Output n)) : List ℤ := out.filterMap fun
  | .call _ => none
  | .value v => some v

/-! ## The threads come to an end -/

section Threads

variable {T : Type} [DecidableEq T] {threshold : ℤ} {as : List (T × Unit)} {tr : List (Event T)}
  {s : St T (CounterT T) Loc} {todo : T → List Op} {t : T}

/-- the steps that are left of a call -/
def stepsLeft : Option Running → ℕ
  | none => 0
  | some (.update _ _ p) =>
    match p with
    | .lockLocal => 11
    | .loadLocal => 10
    | .storeLocal _ => 9
    | .test => 8
    | .lockGlobal => 7
    | .loadGlobal => 6
    | .loadAmount _ => 5
    | .storeGlobal _ => 4
    | .unlockGlobal => 3
    | .resetLocal => 2
    | .unlockLocal => 1
  | some (.get p) =>
    match p with
    | .lock => 3
    | .load => 2
    | .unlock _ => 1

def fuel (l : Loc) : ℕ := 12 * l.todo.length + stepsLeft l.running

omit [DecidableEq T] in
theorem fuel_step {m m' : CounterT T} {l l' : Loc} {es : List (Event T)} (hs : prog t () m l = some (m', l', es)) :
    fuel l' < fuel l := by
  obtain ⟨running, todo⟩ := l
  cases running with
  | none =>
    cases todo with
    | nil => cases hs
    | cons op todo =>
      cases op with
      | update threadID amt =>
        obtain ⟨cpu, -, he⟩ := Option.map_eq_some_iff.1 hs
        cases he
        simp only [fuel, stepsLeft, List.length_cons]
        omega
      | get =>
        cases hs
        simp only [fuel, stepsLeft, List.length_cons]
        omega
  | some r =>
    cases r with
    | update cpu amt p =>
      obtain ⟨⟨x, q⟩, hq, he⟩ := Option.map_eq_some_iff.1 hs
      cases he
      cases p with
      | lockLocal =>
        obtain ⟨-, he⟩ := lock_step hq
        cases he
        simp [fuel, stepsLeft]
      | lockGlobal =>
        obtain ⟨-, he⟩ := lock_step hq
        cases he
        simp [fuel, stepsLeft]
      | test =>
        simp only [update] at hq
        split_ifs at hq <;> cases hq <;> simp [fuel, stepsLeft]
      | _ =>
        cases hq
        simp [fuel, stepsLeft]
    | get p =>
      obtain ⟨⟨x, q⟩, hq, he⟩ := Option.map_eq_some_iff.1 hs
      cases he
      cases p with
      | lock =>
        obtain ⟨-, he⟩ := lock_step hq
        cases he
        simp [fuel, stepsLeft]
      | _ =>
        cases hq
        simp [fuel, stepsLeft]

theorem prog_length [Fintype T] (h : Run prog (ApproximateCounter.start threshold todo) as tr s) :
    as.length + total fuel s.loc ≤ 12 * ∑ t, (todo t).length := by
  induction h with
  | nil =>
    simp only [ApproximateCounter.start, total, fuel, stepsLeft, List.length_nil, Nat.zero_add, Nat.add_zero,
      ← Finset.mul_sum]
    exact le_rfl
  | @snoc as tr s h t c m l es hs ih =>
    have hf := fuel_step hs
    have ht := total_update fuel s.loc t l
    simp only [List.length_append, List.length_singleton, St.move_loc]
    omega

omit [DecidableEq T] in
/-- a thread that has `glock` can step -/
theorem canStep_global (h : inGlobal (s.loc t)) : CanStep prog s t := by
  refine ⟨(), ?_⟩
  generalize s.loc t = l at h
  obtain ⟨running, todo⟩ := l
  cases running with
  | none => exact h.elim
  | some r =>
    cases r with
    | update cpu amt p => cases p <;> first | rfl | exact h.elim
    | get p => cases p <;> first | rfl | exact absurd rfl h

omit [DecidableEq T] in
/-- while `glock` is free a thread that has its slot can step -/
theorem canStep_local {i : Fin NUMCPUS} (hg : s.sh.glock = none) (h : inLocal i (s.loc t)) : CanStep prog s t := by
  refine ⟨(), ?_⟩
  generalize s.loc t = l at h
  obtain ⟨running, todo⟩ := l
  cases running with
  | none => exact h.elim
  | some r =>
    cases r with
    | update cpu amt p =>
      cases p with
      | lockLocal => exact absurd rfl h.2
      | lockGlobal => simp [prog, update, hg, lock]
      | test =>
        simp only [prog, update, Option.isSome_map]
        split_ifs <;> rfl
      | _ => rfl
    | get p => exact h.elim

theorem cpuOf_isSome {threadID : ℤ} (h : 0 ≤ threadID) : (cpuOf threadID).isSome := by
  have hlt : threadID.tmod NUMCPUS < NUMCPUS := Int.tmod_lt_of_pos threadID (by decide)
  have hle : 0 ≤ threadID.tmod NUMCPUS := Int.tmod_nonneg _ h
  unfold cpuOf
  rw [dif_pos ⟨by omega, hle⟩]
  rfl

/-- the thread has come to the end of its calls -/
def Ended (l : Loc) : Prop := l = ⟨none, []⟩

/-- a thread that has not come to its end can step, or it waits for one that can -/
theorem prog_live [Fintype T] (hT : 1 ≤ threshold) (hones : ∀ t, Ones (todo t))
    (h : Run prog (ApproximateCounter.start threshold todo) as tr s) (ht : ¬ Ended (s.loc t)) :
    ∃ t, CanStep prog s t := by
  obtain ⟨q, hu⟩ := run_unitInv hT hones h
  obtain ⟨C, S, hinv⟩ := hu.inv
  cases hg : s.sh.glock with
  | some u => exact ⟨u, canStep_global ((hinv.glock u).1 hg)⟩
  | none =>
    have hone := (hu.ones t).1
    cases hl : s.loc t with
    | mk running todo =>
      rw [hl] at ht hone
      cases running with
      | none =>
        cases todo with
        | nil => exact absurd rfl ht
        | cons op todo =>
          refine ⟨t, (), ?_⟩
          rw [hl]
          cases op with
          | update threadID amt =>
            have hid := (hone threadID amt List.mem_cons_self).1
            simpa [prog] using cpuOf_isSome hid
          | get => rfl
      | some r =>
        cases r with
        | get p =>
          cases p with
          | lock => exact ⟨t, (), by rw [hl]; simp [prog, ApproximateCounter.get, hg, lock]⟩
          | load => exact ⟨t, (), by rw [hl]; rfl⟩
          | unlock val => exact ⟨t, (), by rw [hl]; rfl⟩
        | update cpu amt p =>
          by_cases hp : p = .lockLocal
          · subst hp
            cases hm : s.sh.llock cpu with
            | none => exact ⟨t, (), by rw [hl]; simp [prog, update, hm, lock]⟩
            | some u => exact ⟨u, canStep_local hg ((hinv.llock cpu u).1 hm)⟩
          · exact ⟨t, canStep_local hg (i := cpu) (by rw [hl]; exact ⟨rfl, hp⟩)⟩

/-- after all calls, what has been transferred -/
theorem prog_global [Fintype T] (hT : 1 ≤ threshold) (hones : ∀ t, Ones (todo t))
    (h : Run prog (ApproximateCounter.start threshold todo) as tr s) (hend : ∀ t, Ended (s.loc t)) :
    s.sh.global = transfers threshold (fun i => ∑ t, callsAt i (todo t)) ∧ s.sh.glock = none := by
  obtain ⟨q, hu⟩ := run_unitInv hT hones h
  obtain ⟨C, S, hinv⟩ := hu.inv
  have hidle : ∀ t, ¬ Updating (s.loc t) := by
    rintro t ⟨cpu, amt, p, hr⟩
    rw [hend t] at hr
    cases hr
  constructor
  · rw [hu.quiescent hT hidle]
    congr 1
    funext i
    have hall := run_allCalls h i
    simp only [allCalls, show ∀ t, s.loc t = ⟨none, []⟩ from hend] at hall
    simpa [callsAt] using hall
  · by_contra hlocked
    obtain ⟨u, hu⟩ := Option.ne_none_iff_exists'.1 hlocked
    have hin := (hinv.glock u).1 hu
    rw [hend u] at hin
    exact hin

end Threads

/-! ## The program -/

section Program

variable {threshold : ℤ} {loops : ℕ} {as : List (Fin n × Unit)} {tr : List (Output n)}
  {u : St (Fin n) (CounterT (Thread n)) Loc}

/-- the calls of the threads of the process -/
def calls (loops : ℕ) : Thread n → List Op
  | none => []
  | some t => worker loops t

theorem calls_ones (t : Thread n) : Ones (calls loops t) := by
  intro threadID amt hm
  cases t with
  | none => simp [calls] at hm
  | some t =>
    obtain ⟨-, he⟩ := List.mem_replicate.1 hm
    cases he
    exact ⟨Int.natCast_nonneg _, rfl⟩

/-- `u` with `main`, which makes no call -/
def withMain (u : St (Fin n) (CounterT (Thread n)) Loc) : St (Thread n) (CounterT (Thread n)) Loc :=
  ⟨u.sh, fun
    | none => ⟨none, []⟩
    | some t => u.loc t⟩

theorem withMain_move (t : Fin n) (m : CounterT (Thread n)) (l : Loc) :
    withMain (u.move t m l) = (withMain u).move (some t) m l := by
  unfold withMain St.move
  congr 1
  funext v
  cases v with
  | none => rfl
  | some v =>
    by_cases hv : v = t
    · simp [hv]
    · simp [hv]

theorem thread_run (h : Run thread ⟨init threshold, fun t => ⟨none, worker loops t⟩⟩ as tr u) :
    ∃ bs es, Run prog (ApproximateCounter.start threshold (calls loops)) bs es (withMain u) ∧
      as.length = bs.length ∧ tr = es.map .call := by
  induction h with
  | nil =>
    refine ⟨[], [], ?_, rfl, rfl⟩
    have hstart : withMain (⟨init threshold, fun t : Fin n => ⟨none, worker loops t⟩⟩ : St _ _ Loc) =
        ApproximateCounter.start threshold (calls loops) := by
      unfold withMain ApproximateCounter.start
      congr 1
      funext t
      cases t <;> rfl
    rw [hstart]
    exact .nil
  | @snoc as tr u h t c m l es hs ih =>
    obtain ⟨bs, es', hrun, hlen, rfl⟩ := ih
    obtain ⟨⟨m', l', es''⟩, hp, he⟩ := Option.map_eq_some_iff.1 hs
    cases he
    refine ⟨bs ++ [(some t, c)], es' ++ es'', ?_, by simp [hlen], by simp⟩
    rw [withMain_move]
    exact hrun.snoc hp

theorem thread_returned (t : Fin n) (c : Unit) (m : CounterT (Thread n)) (l : Loc)
    (h : (program n).returned l = true) : (program n).thread t c m l = none := by
  obtain rfl : l = ⟨none, []⟩ := by simpa [program] using h
  rfl

theorem thread_live (hT : 1 ≤ threshold) (bs : List (Fin n × Unit)) (tr : List (Output n))
    (u : St (Fin n) (CounterT (Thread n)) Loc)
    (h : Run (program n).thread ⟨init threshold, fun t => ⟨none, worker loops t⟩⟩ bs tr u)
    (ht : ∃ t, (program n).returned (u.loc t) = false) : ∃ t, CanStep (program n).thread u t := by
  obtain ⟨t, ht⟩ := ht
  obtain ⟨cs, es, hrun, -, -⟩ := thread_run h
  have hnot : ¬ Ended ((withMain u).loc (some t)) := by simpa [program, withMain, Ended] using ht
  obtain ⟨v, c, hv⟩ := prog_live hT calls_ones hrun hnot
  cases v with
  | none => simp [withMain, prog] at hv
  | some v => exact ⟨v, c, by simpa [program, thread, withMain] using hv⟩

/-- `main` in `print_time`, which takes no step if it finds `glock` locked -/
theorem run_print {m : CounterT (Thread n)} {cs : List (Unit × Unit)} {tr : List (Output n)}
    {w : St Unit (CounterT (Thread n)) PrintPc} (h : Run print_time ⟨m, fun _ => .get .lock⟩ cs tr w) :
    match w.loc () with
    | .get .lock => w.sh = m ∧ tr = [] ∧ cs.length = 0
    | .get .load => m.glock = none ∧ w.sh = { m with glock := some none } ∧ tr = [] ∧ cs.length = 1
    | .get (.unlock v) => v = m.global ∧ tr = [] ∧ cs.length = 2
    | .print v => v = m.global ∧ tr = [] ∧ cs.length = 3
    | .returned => tr = [.value m.global] ∧ cs.length = 4 := by
  induction h with
  | nil => exact ⟨rfl, rfl, rfl⟩
  | @snoc cs tr w h t c x pc es hs ih =>
    rw [show w.loc t = w.loc () from rfl] at hs
    rw [St.move_loc, show t = () from rfl, Function.update_self]
    generalize w.loc () = l at hs ih
    cases l with
    | get p =>
      cases p with
      | lock =>
        obtain ⟨h1, rfl, h3⟩ := ih
        obtain ⟨⟨y, q⟩, hq, he⟩ := Option.map_eq_some_iff.1 hs
        cases he
        obtain ⟨hfree, he⟩ := lock_step hq
        cases he
        exact ⟨h1 ▸ hfree, by simp [h1], rfl, by simp [h3]⟩
      | load =>
        obtain ⟨h1, h2, rfl, h4⟩ := ih
        cases hs
        exact ⟨by simp [h2], rfl, by simp [h4]⟩
      | unlock v =>
        obtain ⟨rfl, rfl, h3⟩ := ih
        cases hs
        exact ⟨rfl, rfl, by simp [h3]⟩
    | print v =>
      obtain ⟨rfl, rfl, h3⟩ := ih
      cases hs
      exact ⟨rfl, by simp [h3]⟩
    | returned => cases hs

theorem print_length {m : CounterT (Thread n)} {cs : List (Unit × Unit)} {tr : List (Output n)}
    {w : St Unit (CounterT (Thread n)) PrintPc} (h : Run print_time ⟨m, fun _ => .get .lock⟩ cs tr w) :
    cs.length ≤ 4 := by
  have hp := run_print h
  cases hl : w.loc () with
  | get p => cases p <;> simp only [hl] at hp <;> omega
  | print v =>
    simp only [hl] at hp
    omega
  | returned =>
    simp only [hl] at hp
    omega

/-- `print_time` on a free `glock` comes to its end -/
theorem print_complete {m : CounterT (Thread n)} {cs : List (Unit × Unit)} {tr : List (Output n)}
    {w : St Unit (CounterT (Thread n)) PrintPc} (h : Run print_time ⟨m, fun _ => .get .lock⟩ cs tr w)
    (hfree : m.glock = none) (hno : ¬ CanStep print_time w ()) : tr = [.value m.global] := by
  have hp := run_print h
  have hn := not_canStep hno ()
  cases hl : w.loc () with
  | get p =>
    rw [hl] at hn hp
    cases p with
    | lock =>
      obtain ⟨h1, -, -⟩ := hp
      simp [print_time, ApproximateCounter.get, lock, h1, hfree] at hn
    | load => cases hn
    | unlock v => cases hn
  | print v =>
    rw [hl] at hn
    cases hn
  | returned =>
    rw [hl] at hp
    exact hp.1

/-- the updates of a slot -/
theorem callsAt_worker (i : Fin NUMCPUS) (t : Fin n) :
    callsAt i (worker loops t) = if t.val % NUMCPUS = i.val then loops else 0 := by
  simp only [callsAt, worker, List.countP_replicate, Op.isUpdateOf, decide_eq_true_eq]
  norm_cast

/-- **What a program of this kind prints.** -/
theorem program_value (hT : 1 ≤ threshold) {as : List (Option (Fin n) × Unit)} {out : List (Output n)}
    {s : St (Option (Fin n)) (Process n (CounterT (Thread n))) (ForkJoin.Loc Loc PrintPc)}
    (h : Run (program n).prog (programStart n loops threshold) as out s) :
    as.length ≤ 12 * (n * loops) + (3 * n + 7) ∧ ((∀ t, ¬ CanStep (program n).prog s t) →
      values out = [transfers threshold fun i => ∑ t : Fin n, if t.val % NUMCPUS = i.val then loops else 0]) := by
  constructor
  · have hthreads : ∀ bs tr u, Run (program n).thread ⟨init threshold, fun t => ⟨none, worker loops t⟩⟩ bs tr u →
        bs.length ≤ 12 * (n * loops) := by
      intro bs tr u hrun
      obtain ⟨cs, es, hrun', hlen, -⟩ := thread_run hrun
      have hle := prog_length hrun'
      simp only [Fintype.sum_option, calls, worker, List.length_nil, List.length_replicate, Finset.sum_const,
        Finset.card_univ, Fintype.card_fin, smul_eq_mul, Nat.zero_add] at hle
      omega
    have hlen := run_length_le hthreads (fun _ _ _ _ _ _ _ _ hw => print_length hw) h
    omega
  · intro hno
    obtain ⟨bs, tr₁, u, cs, tr₂, a, h1, h2, h3, h4, rfl⟩ := run_complete thread_returned (thread_live hT) h hno
    obtain ⟨cs', es, hrun, -, rfl⟩ := thread_run h1
    have hend : ∀ t, Ended ((withMain u).loc t) := by
      intro t
      cases t with
      | none => rfl
      | some t => simpa [program, withMain, Ended] using h2 t
    obtain ⟨hglobal, hfree⟩ := prog_global hT calls_ones hrun hend
    rw [print_complete h3 hfree h4]
    have hcalls : ∀ i, ∑ t : Thread n, callsAt i (calls loops t) =
        ∑ t : Fin n, if t.val % NUMCPUS = i.val then loops else 0 := by
      intro i
      rw [Fintype.sum_option]
      simp only [calls, callsAt_worker]
      simp [callsAt]
    simp only [hcalls] at hglobal
    rw [← hglobal]
    simp [program, values, List.filterMap_append, List.filterMap_map, withMain]

end Program

/-- the updates of each slot are those of one thread -/
theorem slot_updates (loops : ℕ) (i : Fin NUMCPUS) :
    (∑ t : Fin NUM_THREADS, if t.val % NUMCPUS = i.val then loops else 0) = loops := by
  have hcard : ∀ i : Fin NUMCPUS, (Finset.univ.filter fun t : Fin NUM_THREADS => t.val % NUMCPUS = i.val).card = 1 := by
    decide
  rw [← Finset.sum_filter, Finset.sum_const, hcard, one_smul]

/-- `main` has come to its end, with what it has shown -/
def MainEnds (out : List (Output NUM_THREADS)) : Prop :=
  ∃ as s, Run (program NUM_THREADS).prog (programStart NUM_THREADS (LIMIT / NUM_THREADS) 1024) as out s ∧
    ∀ t, ¬ CanStep (program NUM_THREADS).prog s t

/-- **What the program prints.** Every run of `main` ends, and what it prints then is 99999744: of the 12500000 updates
of each slot, 32 have not been transferred. -/
theorem program_prints :
    (∀ as out s, Run (program NUM_THREADS).prog (programStart NUM_THREADS (LIMIT / NUM_THREADS) 1024) as out s →
      as.length ≤ 12 * LIMIT + 31) ∧
    (∃ out, MainEnds out) ∧ ∀ out, MainEnds out → values out = [99999744] := by
  have hlen : ∀ as out s, Run (program NUM_THREADS).prog
      (programStart NUM_THREADS (LIMIT / NUM_THREADS) 1024) as out s → as.length ≤ 12 * LIMIT + 31 :=
    fun as out s h => (program_value (by decide) h).1
  refine ⟨hlen, ?_, ?_⟩
  · obtain ⟨as, out, s, h, hno⟩ := Run.complete hlen
    exact ⟨out, as, s, h, hno⟩
  · rintro out ⟨as, s, h, hno⟩
    rw [(program_value (by decide) h).2 hno]
    simp only [slot_updates]
    norm_num [transfers, NUMCPUS, LIMIT, NUM_THREADS]

end OsPractice.ApproximateCounterMain
