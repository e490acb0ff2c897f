/-
One-time initialisation (`POSIXthreads-thrdsf-lclstrg/one_time_init.c`): `one_time_init` runs a routine unless the flag
of the control block is set, and sets the flag, all of it with the mutex of the control block.

The routine is any code that does not call `one_time_init` (`Routine`): it takes any number of steps on memory of its
own, may make choices and may be blocked. Any number of threads call `one_time_init` any number of times on one control
block. The calls of the mutex do not fail.

A thread that is in the routine keeps the mutex, so that the flag and the threads inside tell whether the routine has
been started, and whether it has completed (`Inv`).

Results:
- `inv_step`: what a step keeps of the flag, the mutex and the routine's progress;
- `work_step`: what a step keeps of the memory that the routine works on;
- `routine_once`: the routine is started at most once, and no call returns before it has completed.
-/
import OsPractice.Core.Interleave
import OsPractice.Core.Monitor

namespace OsPractice.OneTimeInit

open Interleave Monitor

/-! ## The program -/

/-- the code of an initialiser: where it begins, and a step of it, after which it goes on or returns -/
structure Routine (C G R : Type) where
  entry : R
  step : C → G → R → Option (G × Option R)

/-- an execution that has begun with the memory `mem`: the memory, and where it is, or that it has returned -/
inductive Routine.Ran {C G R : Type} (init_routine : Routine C G R) (mem : G) : G → Option R → Prop where
  | entry : init_routine.Ran mem mem (some init_routine.entry)
  | step {c : C} {g g' : G} {r : R} {next : Option R} (h : init_routine.Ran mem g (some r))
      (hs : init_routine.step c g r = some (g', next)) : init_routine.Ran mem g' next

/-- `once_init_t`, and the memory that the routine works on -/
structure Once (T G : Type) where
  mtx : Mutex T
  flg : Bool
  mem : G

/-- where a thread is in `one_time_init`; `out` is between two calls -/
inductive Pc (R : Type) where
  | out
  | lock
  | test
  | routine (r : R)
  | set
  | unlock
  | ret
  deriving DecidableEq, Repr

inductive Event (T : Type) where
  | started (t : T)
  | completed (t : T)
  | returned (t : T)
  deriving DecidableEq, Repr

variable {T C G R : Type}

def prog (init_routine : Routine C G R) : Prog T C (Once T G) (Pc R) (Event T) := fun t c once pc =>
  match pc with
  | .out => some (once, .lock, [])
  | .lock => (lock t once.mtx).map fun m => ({ once with mtx := m }, .test, [])
  | .test =>
    if once.flg = false then some (once, .routine init_routine.entry, [.started t]) else some (once, .unlock, [])
  | .routine r => (init_routine.step c once.mem r).map fun (mem, next) =>
    match next with
    | some r' => ({ once with mem := mem }, .routine r', [])
    | none => ({ once with mem := mem }, .set, [.completed t])
  | .set => some ({ once with flg := true }, .unlock, [])
  | .unlock => some ({ once with mtx := none }, .ret, [])
  | .ret => some (once, .out, [.returned t])

/-- `PTHREAD_MUTEX_INITIALIZER` and `FALSE` -/
def start (mem : G) : St T (Once T G) (Pc R) := ⟨⟨none, false, mem⟩, fun _ => .out⟩

/-! ## The trace -/

def Event.isStart : Event T → Bool
  | .started _ => true
  | _ => false

/-- how often the routine has been started -/
def starts (tr : List (Event T)) : ℕ := tr.countP Event.isStart

/-- the routine has been run to its end -/
def Done (tr : List (Event T)) : Prop := ∃ t, .started t ∈ tr ∧ .completed t ∈ tr

theorem Done.append {tr : List (Event T)} (h : Done tr) (es : List (Event T)) : Done (tr ++ es) := by
  obtain ⟨t, hs, hc⟩ := h
  exact ⟨t, List.mem_append_left _ hs, List.mem_append_left _ hc⟩

theorem starts_append (tr es : List (Event T)) : starts (tr ++ es) = starts tr + starts es := List.countP_append

/-! ## The invariant -/

/-- the thread has locked the mutex -/
def Inside : Pc R → Prop
  | .out | .lock | .ret => False
  | _ => True

/-- the thread has started the routine, and the flag does not say so yet -/
def Busy : Pc R → Prop
  | .routine _ | .set => True
  | _ => False

/-- what thread `t` knows of the flag and the trace -/
def At (flg : Bool) (tr : List (Event T)) (t : T) : Pc R → Prop
  | .routine _ => flg = false ∧ starts tr = 1 ∧ .started t ∈ tr
  | .set => flg = false ∧ starts tr = 1 ∧ Done tr
  | .unlock | .ret => flg = true
  | _ => True

structure Inv (tr : List (Event T)) (s : St T (Once T G) (Pc R)) : Prop where
  mutex : Guards Inside s.sh.mtx s.loc
  threads : ∀ t, At s.sh.flg tr t (s.loc t)
  fresh : s.sh.flg = false → (∀ t, ¬ Busy (s.loc t)) → starts tr = 0
  done : s.sh.flg = true → starts tr = 1 ∧ Done tr
  returned : ∀ pre t post, tr = pre ++ .returned t :: post → Done pre

variable {init_routine : Routine C G R} {tr es : List (Event T)} {s : St T (Once T G) (Pc R)} {t : T} {c : C}
  {once : Once T G} {pc : Pc R}

theorem inv_start (mem : G) : Inv [] (start mem : St T (Once T G) (Pc R)) where
  mutex := Guards.start fun _ => id
  threads _ := trivial
  fresh _ _ := rfl
  done h := by cases h
  returned pre _ _ h := by cases pre <;> cases h

theorem busy_inside (h : Busy pc) : Inside pc := by
  cases pc <;> trivial

/-- what a thread knows is still so when others go on, unless they start the routine -/
theorem At.append {flg : Bool} (h : At flg tr t pc) (hes : starts es = 0) : At flg (tr ++ es) t pc := by
  cases pc with
  | routine r => exact ⟨h.1, by rw [starts_append, h.2.1, hes], List.mem_append_left _ h.2.2⟩
  | set => exact ⟨h.1, by rw [starts_append, h.2.1, hes], h.2.2.append es⟩
  | _ => exact h

variable [DecidableEq T]

/-- a step that neither starts the routine nor sets the flag -/
theorem Inv.quiet (h : Inv tr s) (hflg : once.flg = s.sh.flg) (hes : starts es = 0)
    (hmutex : Guards Inside once.mtx (Function.update s.loc t pc)) (hat : At s.sh.flg (tr ++ es) t pc)
    (hbusy : Busy pc ↔ Busy (s.loc t)) (hret : ∀ pre u post, es = pre ++ .returned u :: post → Done tr) :
    Inv (tr ++ es) (s.move t once pc) where
  mutex := hmutex
  threads := by
    refine s.forall_move (p := fun u pc => At once.flg (tr ++ es) u pc) _ ?_ fun u _ => ?_
    · rw [hflg]
      exact hat
    · rw [hflg]
      exact (h.threads u).append hes
  fresh hfalse hnone := by
    have hnone' : ∀ u, ¬ Busy (s.loc u) := by
      intro u hu
      by_cases hut : u = t
      · subst hut
        exact hnone u (by rw [St.move_loc, Function.update_self]; exact hbusy.2 hu)
      · exact hnone u (by rw [St.move_loc, Function.update_of_ne hut]; exact hu)
    rw [starts_append, hes, h.fresh (hflg ▸ hfalse) hnone']
  done htrue := by
    obtain ⟨hstarts, hdone⟩ := h.done (hflg ▸ htrue)
    exact ⟨by rw [starts_append, hstarts, hes], hdone.append es⟩
  returned pre u post heq := by
    rcases split_append heq with ⟨post', heq'⟩ | ⟨pre', rfl, heq'⟩
    · exact h.returned pre u post' heq'
    · exact (hret pre' u post heq').append pre'

/-- the thread that finds the flag unset starts the routine -/
theorem Inv.begin (h : Inv tr s) (hl : s.loc t = .test) (hflg : s.sh.flg = false) (r : R) :
    Inv (tr ++ [.started t]) (s.move t s.sh (.routine r)) := by
  have hinside : Inside (s.loc t) := by rw [hl]; trivial
  have hzero : starts tr = 0 := by
    refine h.fresh hflg fun u hu => ?_
    obtain rfl := h.mutex.unique (busy_inside hu) hinside
    rw [hl] at hu
    exact hu
  have hone : starts (tr ++ [.started t]) = 1 := by rw [starts_append, hzero]; rfl
  refine ⟨h.mutex.stay (by rw [hl]; exact Iff.rfl), ?_, fun _ hnone => ?_, fun htrue => ?_, fun pre u post heq => ?_⟩
  · refine s.forall_move (p := fun u pc => At s.sh.flg (tr ++ [.started t]) u pc) _ ?_ fun u hu => ?_
    · exact ⟨hflg, hone, List.mem_append_right _ List.mem_cons_self⟩
    · -- the others are outside, and none of them has seen the flag set
      have hat := h.threads u
      have hout := h.mutex.outside hinside hu
      generalize s.loc u = p at hat hout
      cases p with
      | out | lock => trivial
      | ret => exact hat
      | _ => exact absurd trivial hout
  · refine absurd trivial (?_ : ¬ Busy (.routine r))
    have := hnone t
    rwa [St.move_loc, Function.update_self] at this
  · rw [St.move_sh, hflg] at htrue
    cases htrue
  · rcases split_append heq with ⟨post', heq'⟩ | ⟨pre', -, heq'⟩
    · exact h.returned pre u post' heq'
    · rcases pre' with _ | ⟨e, pre'⟩
      · cases heq'
      · exact absurd (List.cons.inj heq').2.symm (by simp)

/-- the thread that has run the routine sets the flag -/
theorem Inv.finish (h : Inv tr s) (hl : s.loc t = .set) : Inv tr (s.move t { s.sh with flg := true } .unlock) := by
  have hat := h.threads t
  have hinside : Inside (s.loc t) := by rw [hl]; trivial
  rw [hl] at hat
  refine ⟨h.mutex.stay (by rw [hl]; exact Iff.rfl), ?_, fun hfalse => ?_, fun _ => hat.2, h.returned⟩
  · refine s.forall_move (p := fun u pc => At true tr u pc) _ rfl fun u hu => ?_
    have hout := h.mutex.outside hinside hu
    generalize s.loc u = p at hout
    cases p with
    | out | lock => trivial
    | ret => rfl
    | _ => exact absurd trivial hout
  · cases hfalse

theorem inv_step (h : Inv tr s) (hs : prog init_routine t c s.sh (s.loc t) = some (once, pc, es)) :
    Inv (tr ++ es) (s.move t once pc) := by
  have hat := h.threads t
  have hmutex := h.mutex
  have hnil : ∀ pre (u : T) post, ([] : List (Event T)) = pre ++ .returned u :: post → Done tr := by simp
  cases hl : s.loc t with
  | out =>
    rw [hl] at hs
    cases hs
    exact h.quiet rfl rfl (hmutex.stay (by rw [hl]; exact Iff.rfl)) trivial (by rw [hl]; exact Iff.rfl) hnil
  | lock =>
    rw [hl] at hs
    obtain ⟨hfree, he⟩ := lock_step hs
    cases he
    rw [hfree] at hmutex
    exact h.quiet rfl rfl (hmutex.enter trivial) trivial (by rw [hl]; exact Iff.rfl) hnil
  | test =>
    rw [hl] at hs
    simp only [prog] at hs
    split_ifs at hs with hflg
    · cases hs
      exact h.begin hl hflg _
    · cases hs
      have htrue : s.sh.flg = true := by simpa using hflg
      exact h.quiet rfl rfl (hmutex.stay (by rw [hl]; exact Iff.rfl)) htrue (by rw [hl]; exact Iff.rfl) hnil
  | routine r =>
    rw [hl] at hs hat
    obtain ⟨⟨mem, next⟩, -, he⟩ := Option.map_eq_some_iff.1 hs
    have hstay : ∀ pc : Pc R, Inside pc → Guards Inside s.sh.mtx (Function.update s.loc t pc) := fun pc hpc =>
      hmutex.stay (by rw [hl]; exact iff_of_true hpc trivial)
    cases next with
    | some r' =>
      cases he
      have hat' : At s.sh.flg (tr ++ []) t (.routine r') := by rw [List.append_nil]; exact hat
      exact h.quiet rfl rfl (hstay (.routine r') trivial) hat' (by rw [hl]; exact Iff.rfl) hnil
    | none =>
      cases he
      have hdone : Done (tr ++ [.completed t]) :=
        ⟨t, List.mem_append_left _ hat.2.2, List.mem_append_right _ List.mem_cons_self⟩
      have hone : starts (tr ++ [.completed t]) = 1 := by rw [starts_append, hat.2.1]; rfl
      refine h.quiet rfl rfl (hstay .set trivial) ⟨hat.1, hone, hdone⟩ (by rw [hl]; exact Iff.rfl) ?_
      intro pre u post heq
      rcases pre with _ | ⟨e, pre⟩
      · cases heq
      · exact absurd (List.cons.inj heq).2.symm (by simp)
  | set =>
    rw [hl] at hs
    cases hs
    rw [List.append_nil]
    exact h.finish hl
  | unlock =>
    rw [hl] at hs hat
    cases hs
    exact h.quiet rfl rfl (hmutex.leave (by rw [hl]; trivial) id) hat (by rw [hl]; exact Iff.rfl) hnil
  | ret =>
    rw [hl] at hs hat
    cases hs
    exact h.quiet rfl rfl (hmutex.stay (by rw [hl]; exact Iff.rfl)) trivial (by rw [hl]; exact Iff.rfl)
      fun _ _ _ _ => (h.done hat).2

theorem run_inv {mem : G} {as : List (T × C)} (h : Run (prog init_routine) (start mem) as tr s) : Inv tr s :=
  h.inv_trace (inv_start mem) fun _ _ _ _ _ _ _ hi hs => inv_step hi hs

/-! ## The execution of the routine -/

/-- how far the one execution of the routine is -/
structure Work (init_routine : Routine C G R) (mem : G) (tr : List (Event T)) (s : St T (Once T G) (Pc R)) : Prop where
  fresh : s.sh.flg = false → (∀ t, ¬ Busy (s.loc t)) → s.sh.mem = mem
  running : ∀ t r, s.loc t = .routine r → init_routine.Ran mem s.sh.mem (some r)
  complete : (s.sh.flg = true ∨ ∃ t, s.loc t = .set) → init_routine.Ran mem s.sh.mem none
  ended : ∀ t, .completed t ∈ tr → s.sh.flg = true ∨ ∃ u, s.loc u = .set

variable {mem : G}

omit [DecidableEq T] in
theorem work_start (mem : G) : Work init_routine mem [] (start mem : St T (Once T G) (Pc R)) where
  fresh _ _ := rfl
  running t r h := by cases h
  complete h := by rcases h with h | ⟨t, h⟩ <;> cases h
  ended t h := by cases h

/-- a step outside the routine that leaves the flag alone -/
theorem Work.quiet (h : Work init_routine mem tr s) (hmem : once.mem = s.sh.mem) (hflg : once.flg = s.sh.flg)
    (hout : ¬ Busy (s.loc t)) (hout' : ¬ Busy pc) (hes : ∀ u, .completed u ∉ es) :
    Work init_routine mem (tr ++ es) (s.move t once pc) := by
  have hloc : ∀ u, Busy ((s.move t once pc).loc u) ∨ Busy (s.loc u) → (s.move t once pc).loc u = s.loc u := by
    intro u hu
    rw [St.move_loc] at hu ⊢
    by_cases hut : u = t
    · subst hut
      rw [Function.update_self] at hu
      exact absurd hu (not_or.2 ⟨hout', hout⟩)
    · exact Function.update_of_ne hut _ _
  refine ⟨fun hfalse hnone => ?_, fun u r hu => ?_, fun hdone => ?_, fun u hu => ?_⟩
  · have hnone' : ∀ u, ¬ Busy (s.loc u) := fun u hu => hnone u (by rwa [hloc u (.inr hu)])
    exact hmem.trans (h.fresh (hflg ▸ hfalse) hnone')
  · rw [St.move_sh, hmem]
    exact h.running u r ((hloc u (.inl (by rw [hu]; trivial))).symm.trans hu)
  · rw [St.move_sh, hmem]
    refine h.complete (hdone.imp (fun htrue => hflg ▸ htrue) fun ⟨u, hu⟩ => ⟨u, ?_⟩)
    exact (hloc u (.inl (by rw [hu]; trivial))).symm.trans hu
  · have hold := h.ended u ((List.mem_append.1 hu).resolve_right (hes u))
    exact hold.imp (fun htrue => hflg.trans htrue) fun ⟨v, hv⟩ => ⟨v, (hloc v (.inr (by rw [hv]; trivial))).trans hv⟩

/-- the thread that has the mutex is in the routine, or goes into it or out of it -/
theorem Work.inside (hi : Inv tr s) (hin : Inside (s.loc t)) (hbusy : Busy pc)
    (hrunning : ∀ r, pc = .routine r → init_routine.Ran mem once.mem (some r))
    (hcomplete : once.flg = true ∨ pc = .set → init_routine.Ran mem once.mem none)
    (hended : ∀ u, .completed u ∈ tr ++ es → once.flg = true ∨ pc = .set) :
    Work init_routine mem (tr ++ es) (s.move t once pc) := by
  have hother : ∀ u, u ≠ t → ¬ Busy ((s.move t once pc).loc u) := by
    intro u hu hbusy
    rw [St.move_loc, Function.update_of_ne hu] at hbusy
    exact hi.mutex.outside hin hu (busy_inside hbusy)
  have hself : ∀ u, Busy ((s.move t once pc).loc u) → u = t ∧ (s.move t once pc).loc u = pc := by
    intro u hu
    obtain rfl : u = t := by
      by_contra hut
      exact hother u hut hu
    exact ⟨rfl, by rw [St.move_loc, Function.update_self]⟩
  refine ⟨fun _ hnone => ?_, fun u r hu => ?_, fun hdone => ?_, fun u hu => ?_⟩
  · refine absurd hbusy ?_
    have ht := hnone t
    rwa [St.move_loc, Function.update_self] at ht
  · exact hrunning r ((hself u (by rw [hu]; trivial)).2.symm.trans hu)
  · exact hcomplete (hdone.imp_right fun ⟨u, hu⟩ => (hself u (by rw [hu]; trivial)).2.symm.trans hu)
  · exact (hended u hu).imp_right fun hpc => ⟨t, by rw [St.move_loc, Function.update_self, hpc]⟩

omit [DecidableEq T] in
/-- the routine has not been completed while the thread that has the mutex finds the flag unset -/
theorem Work.not_ended (h : Work init_routine mem tr s) (hi : Inv tr s) (hin : Inside (s.loc t))
    (hflg : s.sh.flg = false) (hset : s.loc t ≠ .set) (u : T) : .completed u ∉ tr := by
  intro hu
  rcases h.ended u hu with htrue | ⟨v, hv⟩
  · rw [hflg] at htrue
    cases htrue
  · obtain rfl : v = t := hi.mutex.unique (by rw [hv]; trivial) hin
    exact hset hv

theorem work_step (hi : Inv tr s) (h : Work init_routine mem tr s)
    (hs : prog init_routine t c s.sh (s.loc t) = some (once, pc, es)) :
    Work init_routine mem (tr ++ es) (s.move t once pc) := by
  have hat := hi.threads t
  cases hl : s.loc t with
  | out | unlock | ret =>
    rw [hl] at hs
    cases hs
    exact h.quiet rfl rfl (by rw [hl]; exact id) id (by simp)
  | lock =>
    rw [hl] at hs
    obtain ⟨-, he⟩ := lock_step hs
    cases he
    exact h.quiet rfl rfl (by rw [hl]; exact id) id (by simp)
  | test =>
    rw [hl] at hs
    simp only [prog] at hs
    split_ifs at hs with hflg
    · cases hs
      have hin : Inside (s.loc t) := by rw [hl]; trivial
      have hnone : ∀ u, ¬ Busy (s.loc u) := by
        intro u hu
        obtain rfl := hi.mutex.unique (busy_inside hu) hin
        rw [hl] at hu
        exact hu
      have hended := h.not_ended hi hin hflg (by rw [hl]; simp)
      refine .inside hi hin trivial ?_ ?_ fun u hu => ?_
      · rintro r ⟨⟩
        rw [h.fresh hflg hnone]
        exact .entry
      · rw [hflg]
        rintro (htrue | hset) <;> contradiction
      · exact absurd hu (by simp [hended u])
    · cases hs
      exact h.quiet rfl rfl (by rw [hl]; exact id) id (by simp)
  | routine r =>
    rw [hl] at hs hat
    obtain ⟨⟨mem', next⟩, hstep, he⟩ := Option.map_eq_some_iff.1 hs
    have hin : Inside (s.loc t) := by rw [hl]; trivial
    have hran := (h.running t r hl).step hstep
    have hended := h.not_ended hi hin hat.1 (by rw [hl]; simp)
    cases next with
    | some r' =>
      cases he
      refine .inside hi hin trivial ?_ ?_ fun u hu => ?_
      · rintro r ⟨⟩
        exact hran
      · rw [hat.1]
        rintro (htrue | hset) <;> contradiction
      · exact absurd hu (by simp [hended u])
    | none =>
      cases he
      exact .inside hi hin trivial (fun r hr => by cases hr) (fun _ => hran) fun _ _ => .inr rfl
  | set =>
    rw [hl] at hs
    cases hs
    have hran := h.complete (.inr ⟨t, hl⟩)
    refine ⟨fun hfalse => ?_, fun u r hu => ?_, fun _ => hran, fun _ _ => .inl rfl⟩
    · cases hfalse
    · -- no other thread is inside
      by_cases hut : u = t
      · subst hut
        rw [St.move_loc, Function.update_self] at hu
        cases hu
      · rw [St.move_loc, Function.update_of_ne hut] at hu
        have hout := hi.mutex.outside (t := t) (by rw [hl]; trivial) hut
        rw [hu] at hout
        exact absurd trivial hout

theorem run_work {as : List (T × C)} (h : Run (prog init_routine) (start mem) as tr s) :
    Work init_routine mem tr s := by
  induction h with
  | nil => exact work_start mem
  | snoc h hs ih => exact work_step (run_inv h) ih hs

/-- **Once.** For any routine, any number of threads and calls and every order of their steps: the routine is started at
most once, and before any call returns, the one execution of the routine has completed. By then the memory is as one
execution of the routine leaves it. -/
theorem routine_once {as : List (T × C)} (h : Run (prog init_routine) (start mem) as tr s) :
    starts tr ≤ 1 ∧ (∀ pre t post, tr = pre ++ .returned t :: post → starts pre = 1 ∧ Done pre) ∧
      ((∃ t, .completed t ∈ tr ∨ .returned t ∈ tr) → init_routine.Ran mem s.sh.mem none) := by
  have hi := run_inv h
  have hw := run_work h
  have hle : starts tr ≤ 1 := by
    by_cases hflg : s.sh.flg = true
    · exact (hi.done hflg).1.le
    · by_cases hbusy : ∀ t, ¬ Busy (s.loc t)
      · exact (hi.fresh (by simpa using hflg) hbusy).le.trans zero_le_one
      · push Not at hbusy
        obtain ⟨t, ht⟩ := hbusy
        have hat := hi.threads t
        generalize s.loc t = p at ht hat
        cases p with
        | routine | set => exact hat.2.1.le
        | _ => exact absurd ht id
  refine ⟨hle, fun pre t post heq => ?_, ?_⟩
  · obtain ⟨u, hstarted, hcompleted⟩ := hi.returned pre t post heq
    have hpos : 0 < starts pre := List.countP_pos_iff.2 ⟨_, hstarted, rfl⟩
    rw [heq, starts_append] at hle
    exact ⟨by omega, u, hstarted, hcompleted⟩
  · rintro ⟨t, hcompleted | hreturned⟩
    · exact hw.complete (hw.ended t hcompleted)
    · obtain ⟨pre, post, heq⟩ := List.append_of_mem hreturned
      obtain ⟨u, -, hcompleted⟩ := hi.returned pre t post heq
      exact hw.complete (hw.ended u (heq ▸ List.mem_append_left _ hcompleted))

/-- a routine of three steps -/
def three : Routine Unit ℕ (Fin 3) where
  entry := 0
  step _ mem r := some (mem + 1, if r = 2 then none else some (r + 1))

/-- two calls; the second one begins while the routine is running -/
theorem routine_once_two :
    ∃ as tr s, Run (prog three) (start 0 : St (Fin 2) _ _) as tr s ∧
      .returned 0 ∈ tr ∧ .returned 1 ∈ tr ∧ starts tr = 1 ∧ three.Ran 0 s.sh.mem none ∧ s.sh.mem = 3 := by
  obtain ⟨s, tr, h, hpre, h0, h1, hmem⟩ := exec_any_run (prog three) (start 0 : St (Fin 2) _ _)
    (([0, 0, 0, 0, 1, 0, 0, 0, 0, 0, 1, 1, 1, 1] : List (Fin 2)).map fun t => (t, ()))
    (fun s tr => tr = [.started 0, .completed 0] ++ .returned 0 :: [.returned 1] ∧ .returned 0 ∈ tr ∧
      .returned 1 ∈ tr ∧ s.sh.mem = 3) (by decide +kernel)
  obtain ⟨hle, hreturned, hran⟩ := routine_once h
  have hone : 1 ≤ starts tr := by
    rw [hpre, starts_append, (hreturned _ _ _ hpre).1]
    exact Nat.le_add_right _ _
  exact ⟨_, tr, s, h, h0, h1, le_antisymm hle hone, hran ⟨0, .inr h0⟩, hmem⟩

end OsPractice.OneTimeInit
