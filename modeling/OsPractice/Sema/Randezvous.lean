/-
Two threads that meet (`sema/randezvous.c`): each prints a line, posts the semaphore that the other one waits on, waits on
its own, and prints another line. The first thread posts before it waits, the second one waits before it posts.

A `printf` of one line is one step. The calls of `sleep` order nothing and are left out.

What a semaphore is worth is what its poster has done and its waiter has not (`Inv`), so neither thread prints its second
line before the other has printed its first, and they cannot wait for each other.

Result: `randezvous_outputs`: every run of the program ends, and what it may have printed then.
-/
import OsPractice.Core.ForkJoin
import OsPractice.Core.Monitor
import OsPractice.Core.TwoLines

namespace OsPractice.Randezvous

open Interleave Semaphore ForkJoin TwoLines

/-! ## Model -/

/-- the semaphores `s1` and `s2` -/
structure Sems where
  s1 : ℕ
  s2 : ℕ
  deriving DecidableEq, Repr

inductive ChildPc where
  | printBefore
  | post
  | wait
  | printAfter
  | returned
  deriving DecidableEq, Repr

def child_1 (x : Sems) : ChildPc → Option (Sems × ChildPc × List (Line (Fin 2)))
  | .printBefore => some (x, .post, [.before 0])
  | .post => some ({ x with s1 := semPost x.s1 }, .wait, [])
  | .wait => (semWait x.s2).map fun v => ({ x with s2 := v }, .printAfter, [])
  | .printAfter => some (x, .returned, [.after 0])
  | .returned => none

def child_2 (x : Sems) : ChildPc → Option (Sems × ChildPc × List (Line (Fin 2)))
  | .printBefore => some (x, .wait, [.before 1])
  | .wait => (semWait x.s1).map fun v => ({ x with s1 := v }, .post, [])
  | .post => some ({ x with s2 := semPost x.s2 }, .printAfter, [])
  | .printAfter => some (x, .returned, [.after 1])
  | .returned => none

def children : Prog (Fin 2) Unit Sems ChildPc (Line (Fin 2)) := fun t _ x pc =>
  if t = 0 then child_1 x pc else child_2 x pc

def program : Program 2 Unit Sems ChildPc EndPc (Line (Fin 2)) where
  thread := children
  returned pc := pc = .returned
  before := [.parentBegin]
  after := showEnd fun _ => [.parentEnd]
  begin := .shows

def programStart : St (Option (Fin 2)) (Process 2 Sems) (Loc ChildPc EndPc) :=
  program.start ⟨0, 0⟩ fun _ => .printBefore

def threads : St (Fin 2) Sems ChildPc := ⟨⟨0, 0⟩, fun _ => .printBefore⟩

/-! ## What the semaphores are worth -/

/-- `child_1` has posted `s1` -/
def posted1 : ChildPc → ℕ
  | .wait | .printAfter | .returned => 1
  | _ => 0

/-- `child_1` has waited on `s2` -/
def waited2 : ChildPc → ℕ
  | .printAfter | .returned => 1
  | _ => 0

/-- `child_2` has waited on `s1` -/
def waited1 : ChildPc → ℕ
  | .post | .printAfter | .returned => 1
  | _ => 0

/-- `child_2` has posted `s2` -/
def posted2 : ChildPc → ℕ
  | .printAfter | .returned => 1
  | _ => 0

structure Inv (x : Sems) (pc1 pc2 : ChildPc) : Prop where
  s1 : x.s1 + waited1 pc2 = posted1 pc1
  s2 : x.s2 + waited2 pc1 = posted2 pc2

def stage : ChildPc → Stage
  | .printBefore => .nothing
  | .returned => .both
  | _ => .first

/-- the steps that `child_1` has taken -/
def steps1 : ChildPc → ℕ
  | .printBefore => 0
  | .post => 1
  | .wait => 2
  | .printAfter => 3
  | .returned => 4

def steps2 : ChildPc → ℕ
  | .printBefore => 0
  | .wait => 1
  | .post => 2
  | .printAfter => 3
  | .returned => 4

variable {x x' : Sems} {pc1 pc2 pc' : ChildPc} {es : List (Line (Fin 2))}

theorem Inv.step1 (h : Inv x pc1 pc2) (hs : child_1 x pc1 = some (x', pc', es)) :
    Inv x' pc' pc2 ∧ steps1 pc' = steps1 pc1 + 1 := by
  obtain ⟨h1, h2⟩ := h
  cases pc1 with
  | wait =>
    obtain ⟨v, hv, he⟩ := wait_step hs
    cases he
    refine ⟨⟨?_, ?_⟩, rfl⟩ <;> simp only [waited1, waited2, posted1, posted2] at h1 h2 ⊢ <;> omega
  | returned => cases hs
  | _ =>
    cases hs
    refine ⟨⟨?_, ?_⟩, rfl⟩ <;> simp only [waited1, waited2, posted1, posted2, semPost_eq] at h1 h2 ⊢ <;> omega

theorem Inv.step2 (h : Inv x pc1 pc2) (hs : child_2 x pc2 = some (x', pc', es)) :
    Inv x' pc1 pc' ∧ steps2 pc' = steps2 pc2 + 1 := by
  obtain ⟨h1, h2⟩ := h
  cases pc2 with
  | wait =>
    obtain ⟨v, hv, he⟩ := wait_step hs
    cases he
    refine ⟨⟨?_, ?_⟩, rfl⟩ <;> simp only [waited1, waited2, posted1, posted2] at h1 h2 ⊢ <;> omega
  | returned => cases hs
  | _ =>
    cases hs
    refine ⟨⟨?_, ?_⟩, rfl⟩ <;> simp only [waited1, waited2, posted1, posted2, semPost_eq] at h1 h2 ⊢ <;> omega

section Runs

variable {as : List (Fin 2 × Unit)} {tr : List (Line (Fin 2))} {s : St (Fin 2) Sems ChildPc}

theorem run_inv (h : Run children threads as tr s) :
    Inv s.sh (s.loc 0) (s.loc 1) ∧ as.length = steps1 (s.loc 0) + steps2 (s.loc 1) := by
  induction h with
  | nil => exact ⟨⟨rfl, rfl⟩, rfl⟩
  | @snoc as tr s h t c x pc es hs ih =>
    obtain ⟨hi, hlen⟩ := ih
    rw [List.length_append, List.length_singleton, hlen]
    fin_cases t
    · obtain ⟨hi', hsteps⟩ := hi.step1 hs
      refine ⟨by simpa using hi', ?_⟩
      simp only [St.move_loc]
      simp [hsteps]
      omega
    · obtain ⟨hi', hsteps⟩ := hi.step2 hs
      refine ⟨by simpa using hi', ?_⟩
      simp [hsteps]
      omega

/-- a thread that has not printed its first line holds the other one up before its second -/
theorem Inv.meets (h : Inv x pc1 pc2) :
    (pc1 = .printBefore → stage pc2 ≠ .both) ∧ (pc2 = .printBefore → stage pc1 ≠ .both) := by
  obtain ⟨h1, h2⟩ := h
  refine ⟨?_, ?_⟩
  · rintro rfl
    cases pc2 <;> simp_all [stage, waited1, posted1]
  · rintro rfl
    cases pc1 <;> simp_all [stage, waited2, posted2]

/-- what a step of `t` prints -/
def Shows (t : Fin 2) (pc pc' : ChildPc) (es : List (Line (Fin 2))) : Prop :=
  (pc = .printBefore ∧ es = [.before t] ∧ stage pc' = .first) ∨ (es = [] ∧ stage pc' = stage pc) ∨
    (pc = .printAfter ∧ es = [.after t] ∧ pc' = .returned)

theorem child_1_shows {pc : ChildPc} (hs : child_1 x pc = some (x', pc', es)) : Shows 0 pc pc' es := by
  cases pc with
  | wait =>
    obtain ⟨v, -, he⟩ := wait_step hs
    cases he
    exact .inr (.inl ⟨rfl, rfl⟩)
  | printBefore => cases hs; exact .inl ⟨rfl, rfl, rfl⟩
  | post => cases hs; exact .inr (.inl ⟨rfl, rfl⟩)
  | printAfter => cases hs; exact .inr (.inr ⟨rfl, rfl, rfl⟩)
  | returned => cases hs

theorem child_2_shows {pc : ChildPc} (hs : child_2 x pc = some (x', pc', es)) : Shows 1 pc pc' es := by
  cases pc with
  | wait =>
    obtain ⟨v, -, he⟩ := wait_step hs
    cases he
    exact .inr (.inl ⟨rfl, rfl⟩)
  | printBefore => cases hs; exact .inl ⟨rfl, rfl, rfl⟩
  | post => cases hs; exact .inr (.inl ⟨rfl, rfl⟩)
  | printAfter => cases hs; exact .inr (.inr ⟨rfl, rfl, rfl⟩)
  | returned => cases hs

theorem children_shows {t : Fin 2} {c : Unit} {pc : ChildPc} (hs : children t c x pc = some (x', pc', es)) :
    Shows t pc pc' es := by
  fin_cases t
  · exact child_1_shows hs
  · exact child_2_shows hs

theorem run_printed (h : Run children threads as tr s) : Printed tr fun t => stage (s.loc t) := by
  induction h with
  | nil => exact .start
  | @snoc as tr s h t c x pc es hs ih =>
    have hself : stage ((s.move t x pc).loc t) = stage pc := by simp
    have hother : ∀ u, u ≠ t → stage ((s.move t x pc).loc u) = stage (s.loc u) := fun u hu => by simp [hu]
    rcases children_shows hs with ⟨hpc, rfl, hfirst⟩ | ⟨rfl, hsame⟩ | ⟨hpc, rfl, rfl⟩
    · refine ih.first (by rw [hpc]; rfl) ?_ (hself.trans hfirst) hother
      obtain ⟨hm1, hm2⟩ := (run_inv h).1.meets
      intro u
      fin_cases t <;> fin_cases u
      · simp [show s.loc 0 = .printBefore from hpc, stage]
      · exact hm1 hpc
      · exact hm2 hpc
      · simp [show s.loc 1 = .printBefore from hpc, stage]
    · have hstage : (fun u => stage ((s.move t x pc).loc u)) = fun u => stage (s.loc u) := by
        funext u
        by_cases hu : u = t
        · rw [hu, hself, hsame]
        · exact hother u hu
      rw [List.append_nil, hstage]
      exact ih
    · exact ih.second (by rw [hpc]; rfl) hself hother

theorem child_1_stuck {pc : ChildPc} (h : child_1 x pc = none) : pc = .returned ∨ pc = .wait ∧ x.s2 = 0 := by
  cases pc with
  | wait => exact .inr ⟨rfl, by simpa [child_1] using h⟩
  | returned => exact .inl rfl
  | _ => cases h

theorem child_2_stuck {pc : ChildPc} (h : child_2 x pc = none) : pc = .returned ∨ pc = .wait ∧ x.s1 = 0 := by
  cases pc with
  | wait => exact .inr ⟨rfl, by simpa [child_2] using h⟩
  | returned => exact .inl rfl
  | _ => cases h

/-- neither thread waits for good -/
theorem children_live (h : Run children threads as tr s) {t : Fin 2} (ht : s.loc t ≠ .returned) :
    ∃ t, CanStep children s t := by
  by_contra hno
  push Not at hno
  obtain ⟨⟨h1, h2⟩, -⟩ := run_inv h
  have hboth : s.loc 0 = .returned ∧ s.loc 1 = .returned := by
    rcases child_1_stuck (not_canStep (hno 0) ()) with e1 | ⟨e1, hs2⟩ <;>
      rcases child_2_stuck (not_canStep (hno 1) ()) with e2 | ⟨e2, hs1⟩ <;>
      simp_all [posted1, waited1, posted2, waited2]
  fin_cases t
  · exact ht hboth.1
  · exact ht hboth.2

/-- the threads print their lines in any two orders -/
theorem run_orders {P Q : List (Fin 2)} (hP : P.Perm (List.finRange 2)) (hQ : Q.Perm (List.finRange 2)) :
    ∃ as s, Run children threads as (P.map .before ++ Q.map .after) s ∧ ∀ t, s.loc t = .returned := by
  have hall : ∀ {L : List (Fin 2)}, L.Perm (List.finRange 2) → L.Nodup ∧ ∀ t, t ∈ L := fun hL =>
    ⟨hL.nodup_iff.2 (List.nodup_finRange 2), fun t => hL.mem_iff.2 (List.mem_finRange t)⟩
  obtain ⟨as1, s1, h1, hs1, hin1, -⟩ := run_each P (hall hP).1 (fun _ => (⟨0, 0⟩ : Sems)) (fun _ => .printBefore)
    (fun t => if t = 0 then .post else .wait) (fun t => [Line.before t]) (fun _ t _ _ => by
      have hstep : children t () ⟨0, 0⟩ .printBefore = some (⟨0, 0⟩, if t = 0 then .post else .wait, [.before t]) := by
        fin_cases t <;> rfl
      exact .single hstep) (s := threads) rfl fun _ _ => rfl
  have hloc0 : s1.loc 0 = .post := hin1 0 ((hall hP).2 0)
  have hloc1 : s1.loc 1 = .wait := hin1 1 ((hall hP).2 1)
  have hmeet : ∃ bs s2, Run children s1 bs [] s2 ∧ ∀ t, s2.loc t = .printAfter := by
    have hp1 : children 0 () s1.sh (s1.loc 0) = some (⟨1, 0⟩, .wait, []) := by rw [hs1, hloc0]; rfl
    have hw1 : children 1 () ⟨1, 0⟩ .wait = some (⟨0, 0⟩, .post, []) := rfl
    have hp2 : children 1 () ⟨0, 0⟩ .post = some (⟨0, 1⟩, .printAfter, []) := rfl
    have hw2 : children 0 () ⟨0, 1⟩ .wait = some (⟨0, 0⟩, .printAfter, []) := rfl
    have hr1 := Run.single hp1
    have hr2 := hr1.snoc (t := 1) (c := ()) (by simpa [hloc1] using hw1)
    have hr3 := hr2.snoc (t := 1) (c := ()) (by simpa using hp2)
    have hr4 := hr3.snoc (t := 0) (c := ()) (by simpa using hw2)
    refine ⟨_, _, hr4, fun t => ?_⟩
    fin_cases t <;> simp
  obtain ⟨bs, s2, h2, hs2⟩ := hmeet
  obtain ⟨as3, s3, h3, -, hin3, -⟩ := run_each Q (hall hQ).1 (fun _ => s2.sh) (fun _ => ChildPc.printAfter)
    (fun _ => .returned) (fun t => [Line.after t]) (fun _ t _ _ => by
      have hstep : children t () s2.sh .printAfter = some (s2.sh, .returned, [.after t]) := by
        fin_cases t <;> rfl
      exact .single hstep) (s := s2) rfl fun t _ => hs2 t
  have hrun := (h1.append h2).append h3
  have htrace : P.flatMap (fun t => [Line.before t]) ++ [] ++ Q.flatMap (fun t => [Line.after t]) =
      P.map .before ++ Q.map .after := by
    simp [← List.map_eq_flatMap]
  rw [htrace] at hrun
  exact ⟨_, s3, hrun, fun t => hin3 t ((hall hQ).2 t)⟩

end Runs

/-! ## The program -/

theorem children_returned (t : Fin 2) (c : Unit) (x : Sems) (pc : ChildPc) (h : program.returned pc = true) :
    program.thread t c x pc = none := by
  obtain rfl : pc = .returned := by simpa [program] using h
  fin_cases t <;> rfl

theorem program_live (bs : List (Fin 2 × Unit)) (tr : List (Line (Fin 2))) (u : St (Fin 2) Sems ChildPc)
    (h : Run program.thread ⟨⟨0, 0⟩, fun _ => .printBefore⟩ bs tr u)
    (ht : ∃ t, program.returned (u.loc t) = false) : ∃ t, CanStep program.thread u t := by
  obtain ⟨t, ht⟩ := ht
  exact children_live (t := t) h (by simpa [program] using ht)

theorem program_length {as : List (Option (Fin 2) × Unit)} {tr : List (Line (Fin 2))}
    {s : St (Option (Fin 2)) (Process 2 Sems) (Loc ChildPc EndPc)} (h : Run program.prog programStart as tr s) :
    as.length ≤ 18 := by
  have hthreads : ∀ bs tr u, Run program.thread ⟨⟨0, 0⟩, fun _ => .printBefore⟩ bs tr u → bs.length ≤ 8 := by
    intro bs tr u hrun
    obtain ⟨-, hlen⟩ := run_inv hrun
    have h1 : ∀ pc, steps1 pc ≤ 4 := by rintro ⟨⟩ <;> decide
    have h2 : ∀ pc, steps2 pc ≤ 4 := by rintro ⟨⟩ <;> decide
    have := h1 (u.loc 0)
    have := h2 (u.loc 1)
    omega
  have hlen := run_length_le hthreads
    (fun bs tr u _ _ cs tr' w hw => length_showEnd (hw : Run (showEnd _) _ _ _ _)) h
  omega

/-- **What the program prints.** Every run ends. One that cannot go on has printed the lines of `main`, between them the
first lines of both threads in some order, and then their second lines in some order; and any two orders are possible. -/
theorem randezvous_outputs (out : List (Line (Fin 2))) :
    (∀ as tr s, Run program.prog programStart as tr s → as.length ≤ 18) ∧
    ((∃ as s, Run program.prog programStart as out s ∧ ∀ t, ¬ CanStep program.prog s t) ↔
      ∃ P Q : List (Fin 2), P.Perm (List.finRange 2) ∧ Q.Perm (List.finRange 2) ∧
        out = .parentBegin :: P.map .before ++ Q.map .after ++ [.parentEnd]) := by
  refine ⟨fun as tr s h => program_length h, ?_⟩
  unfold programStart
  rw [complete_iff_last rfl rfl children_returned program_live]
  constructor
  · rintro ⟨bs, tr, u, h, hall, rfl⟩
    obtain ⟨P, Q, hP, hQ, rfl⟩ := (run_printed h).orders fun t => by
      have hret : u.loc t = .returned := by simpa [program] using hall t
      rw [hret]
      rfl
    exact ⟨P, Q, hP, hQ, rfl⟩
  · rintro ⟨P, Q, hP, hQ, rfl⟩
    obtain ⟨as, s, h, hall⟩ := run_orders hP hQ
    exact ⟨as, _, s, h, fun t => by simp [program, hall t], by simp [program]⟩

end OsPractice.Randezvous
