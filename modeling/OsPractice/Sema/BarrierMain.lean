/-
The test program of the barrier (`sema/barrier.c`): `main` creates `num_threads` threads, each prints a line, passes the
barrier and prints another line; `main` joins them.

A `printf` of one line is one step. The number of threads has been read from the command line and is positive.

Seen without its prints a run of the threads is one of the barrier with one call from each (`run_barrier`), so nobody
prints its second line before all have printed their first.

Results:
- `run_barrier`, `run_printed`: the calls of the barrier in a run of the threads, and the lines that it prints;
- `run_orders`: a run of the threads for any two orders of the lines;
- `program_outputs`: every run of the program ends, and what it may have printed then.
-/
import OsPractice.Core.ForkJoin
import OsPractice.Core.TwoLines
import OsPractice.Sema.BarrierReuse

namespace OsPractice.BarrierMain

open Interleave ForkJoin TwoLines
open Barrier (BarrierT Point barrierInit)
open BarrierReuse (alone_arrive alone_post alone_wait)

/-! ## Model -/

inductive ChildPc where
  | printBefore
  | barrier (p : Point)
  | printAfter
  | returned
  deriving DecidableEq, Repr

variable {n : ℕ}

def child : Prog (Fin n) Unit BarrierT ChildPc (Line (Fin n)) := fun t _ b pc =>
  match pc with
  | .printBefore => some (b, .barrier .sleep, [.before t])
  | .barrier p => (Barrier.barrier b p).map fun r => (r.1, r.2.elim .printAfter .barrier, [])
  | .printAfter => some (b, .returned, [.after t])
  | .returned => none

/-- `main`, with the number of threads that it creates and joins -/
def program (n : ℕ) : Program n Unit BarrierT ChildPc EndPc (Line (Fin n)) where
  thread := child
  returned pc := pc = .returned
  before := [.parentBegin]
  after := showEnd fun _ => [.parentEnd]
  begin := .shows

def programStart (n : ℕ) : St (Option (Fin n)) (Process n BarrierT) (Loc ChildPc EndPc) :=
  (program n).start (barrierInit n) fun _ => .printBefore

/-! ## The calls of the barrier -/

/-- a thread as a caller of the barrier -/
def ChildPc.toLocal : ChildPc → Barrier.Local
  | .printBefore => ⟨1, none⟩
  | .barrier p => ⟨0, some p⟩
  | .printAfter => ⟨0, none⟩
  | .returned => ⟨0, none⟩

/-- the threads of the program before `main` creates them -/
def threads (n : ℕ) : St (Fin n) BarrierT ChildPc := ⟨barrierInit n, fun _ => .printBefore⟩

def hasReturned (pc : ChildPc) : ℕ := if pc = .returned then 1 else 0

section Threads

variable {as : List (Fin n × Unit)} {tr : List (Line (Fin n))} {s : St (Fin n) BarrierT ChildPc} {t u : Fin n} {c : Unit}
  {b b' : BarrierT} {pc pc' : ChildPc} {es : List (Line (Fin n))}

/-- a step is one of the barrier, or prints the second line -/
theorem child_step (h : child t c b pc = some (b', pc', es)) :
    (∃ es', Barrier.prog t () b pc.toLocal = some (b', pc'.toLocal, es')) ∧ hasReturned pc' = hasReturned pc ∨
      pc = .printAfter ∧ b' = b ∧ pc' = .returned := by
  cases pc with
  | printBefore =>
    cases h
    exact .inl ⟨⟨_, rfl⟩, rfl⟩
  | barrier p =>
    obtain ⟨⟨x, q⟩, hq, he⟩ := Option.map_eq_some_iff.1 h
    cases he
    refine .inl ⟨⟨Barrier.shows t p q, ?_⟩, ?_⟩
    · simp only [ChildPc.toLocal, Barrier.prog, hq, Option.map_some]
      cases q <;> rfl
    · cases q <;> rfl
  | printAfter =>
    cases h
    exact .inr ⟨rfl, rfl, rfl⟩
  | returned => cases h

/-- a run of the threads as a run of the barrier -/
theorem run_barrier (h : Run child (threads n) as tr s) :
    ∃ bs tr', Run Barrier.prog (Barrier.start n fun _ => 1) bs tr' (s.map id ChildPc.toLocal) ∧
      as.length = bs.length + total hasReturned s.loc := by
  induction h with
  | nil => exact ⟨[], [], .nil, by simp [threads, total, hasReturned]⟩
  | @snoc as tr s h t c b pc es hs ih =>
    obtain ⟨bs, tr', hrun, hlen⟩ := ih
    have htotal := total_update hasReturned s.loc t pc
    rcases child_step hs with ⟨⟨es', hb⟩, hr⟩ | ⟨hpc, hb, hpc'⟩
    · refine ⟨bs ++ [(t, ())], tr' ++ es', ?_, ?_⟩
      · rw [St.map_move]
        exact hrun.snoc hb
      · simp only [List.length_append, List.length_singleton, St.move_loc]
        omega
    · have hsame : (s.move t b pc).map id ChildPc.toLocal = s.map id ChildPc.toLocal := by
        rw [St.map_move, hb, hpc', show ChildPc.toLocal .returned = (s.map id ChildPc.toLocal).loc t by
          simp [St.map, hpc, ChildPc.toLocal]]
        exact St.move_eq_self _ t
      refine ⟨bs, tr', by rwa [hsame], ?_⟩
      simp only [List.length_append, List.length_singleton, St.move_loc, hpc, hpc', hasReturned] at htotal ⊢
      simp only [reduceCtorEq, if_true, if_false] at htotal
      omega

/-! ## The order of the lines -/

def stage : ChildPc → Stage
  | .printBefore => .nothing
  | .barrier _ => .first
  | .printAfter => .first
  | .returned => .both

theorem unreturned_eq (l : Barrier.Local) : Barrier.unreturned l = Barrier.pending l + Barrier.inFlight l := by
  obtain ⟨k, pc⟩ := l
  cases pc with
  | none => rfl
  | some p => cases p <;> rfl

/-- a call has returned, so all have arrived -/
theorem arrived_of_returned {bs : List (Fin n × Unit)} {tr' : List (Barrier.Event (Fin n))}
    {v : St (Fin n) BarrierT Barrier.Local} (h : Run Barrier.prog (Barrier.start n fun _ => 1) bs tr' v)
    (hu : v.loc u = ⟨0, none⟩) : v.loc t ≠ ⟨1, none⟩ := by
  intro ht
  have hi := Barrier.run_inv (Nat.pos_of_ne_zero fun h0 => (h0 ▸ t).elim0) h
  have hp := hi.pending
  have hf := hi.flight
  have hb := hi.before
  simp only [Finset.sum_const, Finset.card_univ, Fintype.card_fin, smul_eq_mul, Nat.mul_one] at hp
  have hlt : total Barrier.unreturned v.loc < n := by
    have hone : total Barrier.unreturned v.loc < ∑ _w : Fin n, 1 :=
      Finset.sum_lt_sum (fun w _ => hi.caller w) ⟨u, Finset.mem_univ u, by rw [hu]; exact Nat.one_pos⟩
    simpa using hone
  have hsum : total Barrier.unreturned v.loc = total Barrier.pending v.loc + total Barrier.inFlight v.loc := by
    simp only [total, unreturned_eq, Finset.sum_add_distrib]
  have hpos := le_total Barrier.pending v.loc t
  rw [ht] at hpos
  simp only [Barrier.pending] at hpos
  omega

/-- what the threads have printed -/
theorem run_printed (h : Run child (threads n) as tr s) : Printed tr fun t => stage (s.loc t) := by
  induction h with
  | nil => exact .start
  | @snoc as tr s h t c b pc es hs ih =>
    have hself : stage ((s.move t b pc).loc t) = stage pc := by simp
    have hother : ∀ u, u ≠ t → stage ((s.move t b pc).loc u) = stage (s.loc u) := fun u hu => by simp [hu]
    cases hpc : s.loc t with
    | printBefore =>
      rw [hpc] at hs
      cases hs
      refine ih.first (by rw [hpc]; rfl) (fun v hv => ?_) hself hother
      have hret : s.loc v = .returned := by
        cases hv' : s.loc v with
        | returned => rfl
        | _ =>
          rw [hv'] at hv
          cases hv
      obtain ⟨bs, tr', hrun, -⟩ := run_barrier h
      exact arrived_of_returned (u := v) (t := t) hrun (by simp [St.map, hret, ChildPc.toLocal])
        (by simp [St.map, hpc, ChildPc.toLocal])
    | barrier p =>
      rw [hpc] at hs
      obtain ⟨⟨x, q⟩, -, he⟩ := Option.map_eq_some_iff.1 hs
      cases he
      have hsame : (fun u => stage ((s.move t x (q.elim .printAfter .barrier)).loc u)) = fun u => stage (s.loc u) := by
        funext u
        by_cases hu : u = t
        · rw [hu, hself, hpc]
          cases q <;> rfl
        · exact hother u hu
      rw [List.append_nil, hsame]
      exact ih
    | printAfter =>
      rw [hpc] at hs
      cases hs
      exact ih.second (by rw [hpc]; rfl) hself hother
    | returned =>
      rw [hpc] at hs
      cases hs

/-! ## Progress -/

/-- while a thread has not returned some thread can step -/
theorem child_live (h : Run child (threads n) as tr s) (ht : s.loc t ≠ .returned) : ∃ t, CanStep child s t := by
  by_contra hno
  push Not at hno
  obtain ⟨bs, tr', hrun, -⟩ := run_barrier h
  have hi := Barrier.run_inv (Nat.pos_of_ne_zero fun h0 => (h0 ▸ t).elim0) hrun
  have hloc : ∀ v, s.loc v = .returned ∨ ∃ p, s.loc v = .barrier p := by
    intro v
    have hv := hno v
    cases hpc : s.loc v with
    | printBefore => exact absurd ⟨(), by rw [hpc]; rfl⟩ hv
    | barrier p => exact .inr ⟨p, rfl⟩
    | printAfter => exact absurd ⟨(), by rw [hpc]; rfl⟩ hv
    | returned => exact .inl rfl
  have hstuck : ∀ v, ¬ CanStep Barrier.prog (s.map id ChildPc.toLocal) v := by
    rintro v ⟨c, hc⟩
    rcases hloc v with hv | ⟨p, hv⟩
    · simp [St.map, hv, ChildPc.toLocal, Barrier.prog] at hc
    · refine hno v ⟨c, ?_⟩
      simpa [St.map, hv, ChildPc.toLocal, Barrier.prog, child] using hc
  have hst := Barrier.stuck hi hstuck
  obtain ⟨p, hp⟩ := (hloc t).resolve_left ht
  have hun : Barrier.unreturned ((s.map id ChildPc.toLocal).loc t) = 1 := by
    simp [St.map, hp, ChildPc.toLocal, Barrier.unreturned]
  have hsem := (hst t).2.2 (by omega)
  -- all have arrived, and the last one has posted
  have hpend : total Barrier.pending (s.map id ChildPc.toLocal).loc = 0 := total_eq_zero fun v => by
    have h2 := (hst v).2.1
    have h3 := hi.caller v
    omega
  have howed : total (Barrier.owed n) (s.map id ChildPc.toLocal).loc = 0 :=
    total_eq_zero fun v => (Barrier.outside_section (hst v).1 n).2.2
  have hcount := hi.pending
  simp only [Finset.sum_const, Finset.card_univ, Fintype.card_fin, smul_eq_mul, Nat.mul_one] at hcount
  obtain ⟨h3, -, -⟩ := hi.full (by omega)
  have hflight := hi.flight
  omega

theorem child_length (h : Run child (threads n) as tr s) : as.length ≤ n * (2 * n + 10) := by
  rcases Nat.eq_zero_or_pos n with rfl | hn
  · cases h with
    | nil => exact Nat.zero_le _
    | @snoc as tr s h t => exact t.elim0
  · obtain ⟨bs, tr', hrun, hlen⟩ := run_barrier h
    have h1 := Barrier.run_length hn hrun
    have h2 : total hasReturned s.loc ≤ n := by
      have hle : total hasReturned s.loc ≤ ∑ _t : Fin n, 1 := Finset.sum_le_sum fun t _ => by
        unfold hasReturned
        split_ifs <;> omega
      simpa using hle
    simp only [Finset.sum_const, Finset.card_univ, Fintype.card_fin, smul_eq_mul, Nat.mul_one] at h1
    have h3 : n * (2 * n + 10) = n * (2 * n + 9) + n := by ring
    omega

/-! ## A run for each output -/

/-- the rest of a call, and the child that makes it -/
theorem alone_barrier {l l' : Barrier.Local} {tr' : List (Barrier.Event (Fin n))} {p : Point}
    (h : Alone Barrier.prog t b l tr' b' l') (hl : l = ⟨0, some p⟩) :
    ∃ q, l' = ⟨0, q⟩ ∧ Alone child t b (.barrier p) [] b' (q.elim .printAfter .barrier) := by
  induction h generalizing p with
  | refl x l => exact ⟨some p, hl, .refl _ _⟩
  | @head c x x' x'' l l' l'' es tr hs hrest ih =>
    subst hl
    obtain ⟨⟨y, q⟩, hq, he⟩ := Option.map_eq_some_iff.1 hs
    cases he
    have hchild : child t () x (.barrier p) = some (y, q.elim .printAfter .barrier, []) := by
      simp [child, hq]
    cases q with
    | some q =>
      obtain ⟨q', hq', hrest⟩ := ih rfl
      exact ⟨q', hq', .silent hchild hrest⟩
    | none =>
      -- the call has returned, and there is no other
      cases hrest with
      | refl => exact ⟨none, rfl, .single hchild⟩
      | head hs' _ => simp [Barrier.prog] at hs'

theorem alone_before {tr' : List (Barrier.Event (Fin n))} {q : Option Point}
    (h : Alone Barrier.prog t b ⟨1, none⟩ tr' b' ⟨0, q⟩) :
    Alone child t b .printBefore [.before t] b' (q.elim .printAfter .barrier) := by
  cases h with
  | head hs hrest =>
    cases hs
    obtain ⟨q', hq', hrest'⟩ := alone_barrier hrest rfl
    cases hq'
    have hchild : child t () b .printBefore = some (b, .barrier .sleep, [.before t]) := rfl
    simpa using Alone.head hchild hrest'

/-- the threads print their first lines in the order of `P`, and their second ones in the order of `Q` -/
theorem run_orders {P Q : List (Fin n)} (hP : P.Perm (List.finRange n)) (hQ : Q.Perm (List.finRange n)) :
    ∃ as s, Run child (threads n) as (P.map .before ++ Q.map .after) s ∧ ∀ t, s.loc t = .returned := by
  have hnP : P.Nodup := hP.nodup_iff.2 (List.nodup_finRange n)
  have hmem : ∀ t, t ∈ P := fun t => hP.mem_iff.2 (List.mem_finRange t)
  have hlen : P.length = n := by rw [hP.length_eq, List.length_finRange]
  rcases P.eq_nil_or_concat with rfl | ⟨us, w, rfl⟩
  · obtain rfl : n = 0 := by simpa using hlen.symm
    obtain rfl : Q = [] := by simpa using hQ
    exact ⟨[], threads 0, .nil, fun t => t.elim0⟩
  rw [List.length_concat] at hlen
  rw [List.concat_eq_append] at *
  obtain ⟨hnus, -, hdisj⟩ := List.nodup_append.1 hnP
  have hw : w ∉ us := fun hw => hdisj w hw w (List.mem_singleton_self w) rfl
  -- all but the last one arrive and go to wait
  obtain ⟨as1, s1, h1, hs1, hin1, hout1⟩ := run_each us hnus (fun j => (⟨0, 1, n, j⟩ : BarrierT))
    (fun _ => ChildPc.printBefore) (fun _ => .barrier .waitSem) (fun t => [Line.before t])
    (fun j t hj _ => alone_before (alone_arrive t 0 0 (by omega))) (s := threads n) rfl fun _ _ => rfl
  -- the last one posts and returns from the barrier
  have h2 := alone_before (alone_post w 0 0 hlen)
  rw [← hs1, show ChildPc.printBefore = s1.loc w from (hout1 w hw).symm] at h2
  obtain ⟨as2, h2⟩ := h2.run
  -- the others take their tokens
  obtain ⟨as3, s3, h3, hs3, hin3, hout3⟩ := run_each us hnus (fun j => (⟨n - j, 1, n, 0⟩ : BarrierT))
    (fun _ => ChildPc.barrier .waitSem) (fun _ => .printAfter) (fun _ => ([] : List (Line (Fin n))))
    (fun j t hj _ => by
      have h4 := alone_wait t n (n - (j + 1)) 0 0
      rw [show n - (j + 1) + 1 = n - j by omega] at h4
      obtain ⟨q, hq, h5⟩ := alone_barrier h4 rfl
      cases hq
      exact h5)
    (s := s1.move w ⟨0 + n, 1, n, 0⟩ .printAfter) (by simp) fun t ht => by
      rw [St.move_loc, Function.update_of_ne (ne_of_mem_of_not_mem ht hw)]
      exact hin1 t ht
  have hall : ∀ t, s3.loc t = .printAfter := by
    intro t
    by_cases ht : t ∈ us
    · exact hin3 t ht
    · have htw : t = w := by simpa [ht] using hmem t
      rw [hout3 t ht, htw]
      simp
  -- all print their second lines
  obtain ⟨as4, s4, h4, -, hin4, -⟩ := run_each Q (hQ.nodup_iff.2 (List.nodup_finRange n)) (fun _ => s3.sh)
    (fun _ => ChildPc.printAfter) (fun _ => .returned) (fun t => [Line.after t])
    (fun _ t _ _ => .single (show child t () s3.sh .printAfter = some (s3.sh, .returned, [.after t]) from rfl))
    (s := s3) rfl fun t _ => hall t
  have hrun := ((h1.append h2).append h3).append h4
  have htrace : us.flatMap (fun t => [Line.before t]) ++ [.before w] ++
      us.flatMap (fun _ => ([] : List (Line (Fin n)))) ++ Q.flatMap (fun t => [Line.after t]) =
      (us ++ [w]).map .before ++ Q.map .after := by
    simp [← List.map_eq_flatMap]
  rw [htrace] at hrun
  exact ⟨_, s4, hrun, fun t => hin4 t (hQ.mem_iff.2 (List.mem_finRange t))⟩

end Threads

/-! ## The program -/

theorem child_returned (t : Fin n) (c : Unit) (b : BarrierT) (pc : ChildPc)
    (h : (program n).returned pc = true) : (program n).thread t c b pc = none := by
  obtain rfl : pc = .returned := by simpa [program] using h
  rfl

theorem program_live (bs : List (Fin n × Unit)) (tr : List (Line (Fin n))) (u : St (Fin n) BarrierT ChildPc)
    (h : Run (program n).thread ⟨barrierInit n, fun _ => .printBefore⟩ bs tr u)
    (ht : ∃ t, (program n).returned (u.loc t) = false) : ∃ t, CanStep (program n).thread u t := by
  obtain ⟨t, ht⟩ := ht
  exact child_live (t := t) h (by simpa [program] using ht)

/-- **The program ends.** -/
theorem program_length {as : List (Option (Fin n) × Unit)} {tr : List (Line (Fin n))}
    {s : St (Option (Fin n)) (Process n BarrierT) (Loc ChildPc EndPc)}
    (h : Run (program n).prog (programStart n) as tr s) : as.length ≤ n * (2 * n + 13) + 4 := by
  have hlen := run_length_le (fun bs tr u hrun => child_length hrun)
    (fun bs tr u _ _ cs tr' w hw => length_showEnd (hw : Run (showEnd _) _ _ _ _)) h
  have hring : n * (2 * n + 13) = n * (2 * n + 10) + 3 * n := by ring
  omega

/-- **What the program prints.** Every run ends. One that cannot go on has printed the lines of `main`, between them the
first lines of all threads in some order, and then their second lines in some order; and any two orders are possible. -/
theorem program_outputs (n : ℕ) (out : List (Line (Fin n))) :
    (∀ as tr s, Run (program n).prog (programStart n) as tr s → as.length ≤ n * (2 * n + 13) + 4) ∧
    ((∃ as s, Run (program n).prog (programStart n) as out s ∧ ∀ t, ¬ CanStep (program n).prog s t) ↔
      ∃ P Q : List (Fin n), P.Perm (List.finRange n) ∧ Q.Perm (List.finRange n) ∧
        out = .parentBegin :: P.map .before ++ Q.map .after ++ [.parentEnd]) := by
  refine ⟨fun as tr s h => program_length h, ?_⟩
  unfold programStart
  rw [complete_iff_last rfl rfl child_returned program_live]
  constructor
  · rintro ⟨bs, tr, u, h, hall, rfl⟩
    obtain ⟨P, Q, hP, hQ, rfl⟩ := (run_printed h).orders fun t => by
      have hret : u.loc t = .returned := by simpa [program] using hall t
      rw [hret]
      rfl
    exact ⟨P, Q, hP, hQ, rfl⟩
  · rintro ⟨P, Q, hP, hQ, rfl⟩
    obtain ⟨as, s, h, hall⟩ := run_orders hP hQ
    exact ⟨as, _, s, h, fun t => by simp [program, hall t], by simp [program]⟩

end OsPractice.BarrierMain
