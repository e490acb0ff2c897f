/-
`main` of both reader/writer programs: create the readers and the writers, join them, print `value`.

The process is `main` (thread `none`) together with the threads of `ReaderWriterLoops`; a thread runs only after it has
been created and until it has exited, and a join waits for the exit. Seen without `main`, a run of the process is a run
of the threads (`program_threads`), so the results of `ReaderWriterLoops` carry over.

Results:
- `program_result`: what a finished run has printed, with any lock that excludes;
- `programs_correct`: the same for the two locks.
-/
import OsPractice.Sema.ReaderWriterLoops

namespace OsPractice.ReaderWriterMain

open Interleave LockClient RwImpl ReaderWriterLoops

/-! ## Model -/

inductive MainPoint where
  | printBegin
  | createReaders (i : ℕ)
  | createWriters (i : ℕ)
  | joinReaders (i : ℕ)
  | joinWriters (i : ℕ)
  | loadEnd
  | printEnd (tmp : ℤ)
  | returned
  deriving DecidableEq, Repr

inductive Output (T : Type) where
  | begin
  | thread (e : Event T Mode Print)
  | endValue (v : ℤ)
  deriving DecidableEq, Repr

/-- memory, and what the thread library knows of each thread -/
structure Process (T S : Type) where
  mem : Shared S ℤ
  created : T → Bool
  exited : T → Bool

inductive ProcessLoc (L : Type) where
  | main (p : MainPoint)
  | thread (l : L)
  deriving DecidableEq

variable {S AR RR AW RW : Type}

/-- the threads of the process besides `main` -/
abbrev Threads (numReaders numWriters : ℕ) : Type := Fin numReaders ⊕ Fin numWriters

def main {numReaders numWriters : ℕ} (sh : Process (Threads numReaders numWriters) S) :
    MainPoint →
      Option (Process (Threads numReaders numWriters) S × MainPoint × List (Output (Threads numReaders numWriters)))
  | .printBegin => some (sh, .createReaders 0, [.begin])
  | .createReaders i =>
    if h : i < numReaders then
      some ({ sh with created := Function.update sh.created (.inl ⟨i, h⟩) true }, .createReaders (i + 1), [])
    else some (sh, .createWriters 0, [])
  | .createWriters i =>
    if h : i < numWriters then
      some ({ sh with created := Function.update sh.created (.inr ⟨i, h⟩) true }, .createWriters (i + 1), [])
    else some (sh, .joinReaders 0, [])
  | .joinReaders i =>
    if h : i < numReaders then
      if sh.exited (.inl ⟨i, h⟩) then some (sh, .joinReaders (i + 1), []) else none
    else some (sh, .joinWriters 0, [])
  | .joinWriters i =>
    if h : i < numWriters then
      if sh.exited (.inr ⟨i, h⟩) then some (sh, .joinWriters (i + 1), []) else none
    else some (sh, .loadEnd, [])
  | .loadEnd => some (sh, .printEnd sh.mem.data, [])
  | .printEnd tmp => some (sh, .returned, [.endValue tmp])
  | .returned => none

/-- a created thread runs its loop and exits at the end of it -/
def thread {T : Type} [DecidableEq T] (F : RwFunctions S AR RR AW RW) (loops : ℤ) (t : T) (sh : Process T S)
    (l : Loc Mode (Acquire AR AW) (Release RR RW) Local) :
    Option (Process T S × Loc Mode (Acquire AR AW) (Release RR RW) Local × List (Output T)) :=
  if sh.created t && !sh.exited t then
    match prog F.impl (readerWriter loops) t () sh.mem l with
    | some (mem, l', es) => some ({ sh with mem := mem }, l', es.map .thread)
    | none =>
      match l.phase with
      | .out => some ({ sh with exited := Function.update sh.exited t true }, l, [])
      | _ => none
  else none

def program {numReaders numWriters : ℕ} (F : RwFunctions S AR RR AW RW) (loops : ℤ) :
    Prog (Option (Threads numReaders numWriters)) Unit (Process (Threads numReaders numWriters) S)
      (ProcessLoc (Loc Mode (Acquire AR AW) (Release RR RW) Local)) (Output (Threads numReaders numWriters)) :=
  fun t _ sh l =>
    match t, l with
    | none, .main p => (main sh p).map fun r => (r.1, .main r.2.1, r.2.2)
    | some t, .thread l => (thread F loops t sh l).map fun r => (r.1, .thread r.2.1, r.2.2)
    | _, _ => none

/-- the process after `rwlock_init`: no thread yet, `value` is 0 -/
def programStart (numReaders numWriters : ℕ) (F : RwFunctions S AR RR AW RW) :
    St (Option (Threads numReaders numWriters)) (Process (Threads numReaders numWriters) S)
      (ProcessLoc (Loc Mode (Acquire AR AW) (Release RR RW) Local)) :=
  ⟨⟨⟨F.init, 0⟩, fun _ => false, fun _ => false⟩, fun
    | none => .main .printBegin
    | some t => .thread ⟨.out, begin (role t)⟩⟩

/-! ## The threads of the process -/

/-- what the threads show -/
def Output.event {T : Type} : Output T → Option (Event T Mode Print)
  | .thread e => some e
  | _ => none

/-- the values printed by `main` -/
def endValues {T : Type} (tr : List (Output T)) : List ℤ :=
  tr.filterMap fun
    | .endValue v => some v
    | _ => none

variable {numReaders numWriters : ℕ} {F : RwFunctions S AR RR AW RW} {loops : ℤ}

/-- the threads that `main` has joined -/
def Joined : MainPoint → Threads numReaders numWriters → Prop
  | .joinReaders i, .inl j => j.val < i
  | .joinWriters _, .inl _ => True
  | .joinWriters i, .inr j => j.val < i
  | .loadEnd, _ => True
  | .printEnd _, _ => True
  | .returned, _ => True
  | _, _ => False

/-- the process `s` runs the threads `u` -/
structure Runs (loops : ℤ)
    (s : St (Option (Threads numReaders numWriters)) (Process (Threads numReaders numWriters) S)
      (ProcessLoc (Loc Mode (Acquire AR AW) (Release RR RW) Local)))
    (u : St (Threads numReaders numWriters) (Shared S ℤ) (Loc Mode (Acquire AR AW) (Release RR RW) Local)) : Prop where
  mem : s.sh.mem = u.sh
  loc : ∀ t, s.loc (some t) = .thread (u.loc t)
  exited : ∀ t, s.sh.exited t = true → Finished (readerWriter loops) u t
  joined : ∃ p, s.loc none = .main p ∧ (∀ t, Joined p t → s.sh.exited t = true) ∧
    ∀ tmp, p = .printEnd tmp → tmp = s.sh.mem.data

/-- `main` leaves the memory alone and goes past a join only when the thread has exited -/
theorem main_step {sh sh' : Process (Threads numReaders numWriters) S} {p p' : MainPoint}
    {es : List (Output (Threads numReaders numWriters))} (h : main sh p = some (sh', p', es)) :
    sh'.mem = sh.mem ∧ sh'.exited = sh.exited ∧ es.filterMap Output.event = [] ∧
    ((∀ t, Joined p t → sh.exited t = true) → ∀ t, Joined p' t → sh.exited t = true) ∧
    ∀ tmp, p' = .printEnd tmp → tmp = sh.mem.data := by
  cases p with
  | printBegin => cases h; exact ⟨rfl, rfl, rfl, fun _ t ht => (by cases t <;> cases ht), by simp⟩
  | createReaders i =>
    simp only [main] at h
    split_ifs at h <;> cases h <;> exact ⟨rfl, rfl, rfl, fun _ t ht => (by cases t <;> cases ht), by simp⟩
  | createWriters i =>
    simp only [main] at h
    split_ifs at h with hi
    · cases h
      exact ⟨rfl, rfl, rfl, fun _ t ht => (by cases t <;> cases ht), by simp⟩
    · cases h
      refine ⟨rfl, rfl, rfl, ?_, by simp⟩
      intro _ t ht
      cases t with
      | inl j => exact absurd ht (Nat.not_lt_zero _)
      | inr j => cases ht
  | joinReaders i =>
    simp only [main] at h
    split_ifs at h with hi he
    · cases h
      refine ⟨rfl, rfl, rfl, ?_, by simp⟩
      intro hj t ht
      cases t with
      | inl j =>
        rcases Nat.lt_succ_iff_lt_or_eq.1 ht with h1 | h1
        · exact hj (.inl j) h1
        · have h2 : j = ⟨i, hi⟩ := Fin.ext h1
          rw [h2]
          exact he
      | inr j => cases ht
    · cases h
      refine ⟨rfl, rfl, rfl, ?_, by simp⟩
      intro hj t ht
      cases t with
      | inl j => exact hj (.inl j) (by have := j.isLt; simp only [Joined]; omega)
      | inr j => exact absurd ht (Nat.not_lt_zero _)
  | joinWriters i =>
    simp only [main] at h
    split_ifs at h with hi he
    · cases h
      refine ⟨rfl, rfl, rfl, ?_, by simp⟩
      intro hj t ht
      cases t with
      | inl j => exact hj (.inl j) trivial
      | inr j =>
        rcases Nat.lt_succ_iff_lt_or_eq.1 ht with h1 | h1
        · exact hj (.inr j) h1
        · have h2 : j = ⟨i, hi⟩ := Fin.ext h1
          rw [h2]
          exact he
    · cases h
      refine ⟨rfl, rfl, rfl, ?_, by simp⟩
      intro hj t ht
      cases t with
      | inl j => exact hj (.inl j) trivial
      | inr j => exact hj (.inr j) (by have := j.isLt; simp only [Joined]; omega)
  | loadEnd =>
    cases h
    refine ⟨rfl, rfl, rfl, fun hj t _ => hj t trivial, ?_⟩
    intro tmp ht
    cases ht
    rfl
  | printEnd tmp => cases h; exact ⟨rfl, rfl, rfl, fun hj t _ => hj t trivial, by simp⟩
  | returned => cases h

/-- a thread of the process makes a step of its loop, or exits -/
theorem thread_step {t : Threads numReaders numWriters} {sh sh' : Process (Threads numReaders numWriters) S}
    {l l' : Loc Mode (Acquire AR AW) (Release RR RW) Local} {es : List (Output (Threads numReaders numWriters))}
    (h : thread F loops t sh l = some (sh', l', es)) :
    sh.exited t = false ∧
    ((∃ mem es', prog F.impl (readerWriter loops) t () sh.mem l = some (mem, l', es') ∧
        sh' = { sh with mem := mem } ∧ es = es'.map .thread) ∨
      prog F.impl (readerWriter loops) t () sh.mem l = none ∧ l.phase = .out ∧
        sh' = { sh with exited := Function.update sh.exited t true } ∧ l' = l ∧ es = []) := by
  unfold thread at h
  split_ifs at h with hc
  refine ⟨by simp_all, ?_⟩
  split at h
  · rename_i mem l'' es' hp
    cases h
    exact .inl ⟨mem, es', hp, rfl, rfl⟩
  · rename_i hn
    split at h
    · rename_i ho
      cases h
      exact .inr ⟨hn, ho, rfl, rfl, rfl⟩
    · cases h

theorem finished_of_none {t : Threads numReaders numWriters}
    {u : St (Threads numReaders numWriters) (Shared S ℤ) (Loc Mode (Acquire AR AW) (Release RR RW) Local)}
    (h : prog F.impl (readerWriter loops) t () u.sh (u.loc t) = none) (ho : (u.loc t).phase = .out) :
    Finished (readerWriter loops) u t := by
  refine ⟨ho, ?_⟩
  simpa only [prog, ho, Option.map_eq_none_iff] using h

/-- the loop condition does not look at the memory -/
theorem finished_congr {t : Threads numReaders numWriters}
    {u u' : St (Threads numReaders numWriters) (Shared S ℤ) (Loc Mode (Acquire AR AW) (Release RR RW) Local)}
    (h : Finished (readerWriter loops) u t) (hl : u'.loc t = u.loc t) : Finished (readerWriter loops) u' t := by
  obtain ⟨h1, h2⟩ := h
  exact ⟨by rw [hl]; exact h1, by rw [hl]; exact h2⟩

/-- a step of the process is a step of one of its threads or none -/
theorem runs_step
    {s : St (Option (Threads numReaders numWriters)) (Process (Threads numReaders numWriters) S)
      (ProcessLoc (Loc Mode (Acquire AR AW) (Release RR RW) Local))}
    {u : St (Threads numReaders numWriters) (Shared S ℤ) (Loc Mode (Acquire AR AW) (Release RR RW) Local)}
    (hR : Runs loops s u) {t : Option (Threads numReaders numWriters)} {c : Unit}
    {sh : Process (Threads numReaders numWriters) S} {l : ProcessLoc (Loc Mode (Acquire AR AW) (Release RR RW) Local)}
    {es : List (Output (Threads numReaders numWriters))} (hs : program F loops t c s.sh (s.loc t) = some (sh, l, es)) :
    ∃ bs u', Run (prog F.impl (readerWriter loops)) u bs (es.filterMap Output.event) u' ∧
      Runs loops (s.move t sh l) u' := by
  obtain ⟨p, hp, hj, hend⟩ := hR.joined
  cases t with
  | none =>
    rw [hp] at hs
    obtain ⟨⟨sh', p', es'⟩, hm, he⟩ := Option.map_eq_some_iff.1 hs
    cases he
    obtain ⟨h1, h2, h3, h4, h5⟩ := main_step hm
    refine ⟨[], u, by rw [h3]; exact .nil, by rw [← hR.mem]; exact h1, ?_, ?_, p', ?_, ?_, ?_⟩
    · intro t
      simpa using hR.loc t
    · intro t ht
      exact hR.exited t (by rw [← h2]; exact ht)
    · simp
    · intro t ht
      rw [St.move_sh, h2]
      exact h4 hj t ht
    · intro tmp ht
      rw [St.move_sh, h1]
      exact h5 tmp ht
  | some t =>
    rw [hR.loc t] at hs
    obtain ⟨⟨sh', l', es'⟩, hm, he⟩ := Option.map_eq_some_iff.1 hs
    cases he
    obtain ⟨hlive, h⟩ := thread_step hm
    -- `t` has not exited, so `main` has not joined it
    have hbefore : ¬ Joined p t := fun hc => by rw [hj t hc] at hlive; cases hlive
    have hend' : ∀ tmp, p ≠ .printEnd tmp := by
      rintro tmp rfl
      exact hbefore (by cases t <;> trivial)
    rcases h with ⟨mem, es'', hp', rfl, rfl⟩ | ⟨hn, ho, rfl, rfl, rfl⟩
    · rw [hR.mem] at hp'
      have hes : (es''.map Output.thread).filterMap Output.event = es'' := by
        rw [List.filterMap_map]
        exact List.filterMap_some
      refine ⟨[(t, ())], _, by rw [hes]; exact Run.single hp', rfl, ?_, ?_, p, ?_, ?_, ?_⟩
      · intro v
        by_cases hv : v = t
        · subst hv; simp
        · simpa [hv] using hR.loc v
      · intro v hv
        have hne : v ≠ t := by
          rintro rfl
          rw [St.move_sh] at hv
          simp only [hlive] at hv
          cases hv
        exact finished_congr (hR.exited v hv) (by simp [hne])
      · simpa using hp
      · exact hj
      · intro tmp ht
        exact absurd ht (hend' tmp)
    · rw [hR.mem] at hn
      refine ⟨[], u, .nil, hR.mem, ?_, ?_, p, ?_, ?_, ?_⟩
      · intro v
        by_cases hv : v = t
        · subst hv; simp
        · simpa [hv] using hR.loc v
      · intro v hv
        by_cases hvt : v = t
        · subst hvt
          exact finished_of_none hn ho
        · exact hR.exited v (by simpa [hvt] using hv)
      · simpa using hp
      · intro v hv
        by_cases hvt : v = t
        · subst hvt; simp
        · simpa [hvt] using hj v hv
      · intro tmp ht
        exact absurd ht (hend' tmp)

/-- **Without `main`.** What the threads of the process do is a run of the threads alone. -/
theorem program_threads {as : List (Option (Threads numReaders numWriters) × Unit)}
    {tr : List (Output (Threads numReaders numWriters))}
    {s : St (Option (Threads numReaders numWriters)) (Process (Threads numReaders numWriters) S)
      (ProcessLoc (Loc Mode (Acquire AR AW) (Release RR RW) Local))}
    (h : Run (program F loops) (programStart numReaders numWriters F) as tr s) :
    ∃ bs u, Run (prog F.impl (readerWriter loops)) (start F.impl 0 fun t => begin (role t)) bs
      (tr.filterMap Output.event) u ∧ Runs loops s u := by
  refine h.simulate Output.event ?_ fun _ _ _ _ _ _ _ hR hs => runs_step hR hs
  refine ⟨rfl, fun _ => rfl, fun t ht => (by cases ht), .printBegin, rfl, ?_, fun tmp ht => (by cases ht)⟩
  intro t ht
  cases t <;> cases ht

/-! ## The end of the process -/

theorem main_endValues {sh sh' : Process (Threads numReaders numWriters) S} {p p' : MainPoint}
    {es : List (Output (Threads numReaders numWriters))} (h : main sh p = some (sh', p', es)) :
    p ≠ .returned ∧ ((p' ≠ .returned ∧ endValues es = []) ∨ ∃ tmp, p = .printEnd tmp ∧ endValues es = [tmp]) := by
  cases p with
  | printBegin => cases h; exact ⟨by simp, .inl ⟨by simp, rfl⟩⟩
  | loadEnd => cases h; exact ⟨by simp, .inl ⟨by simp, rfl⟩⟩
  | printEnd tmp => cases h; exact ⟨by simp, .inr ⟨tmp, rfl, rfl⟩⟩
  | returned => cases h
  | _ =>
    simp only [main] at h
    split_ifs at h <;> cases h <;> exact ⟨by simp, .inl ⟨by simp, rfl⟩⟩

theorem endValues_threads (es : List (Event (Threads numReaders numWriters) Mode Print)) :
    endValues (es.map Output.thread) = [] := by
  induction es with
  | nil => rfl
  | cons e es ih => exact ih

/-- `main` prints at the end of the run, and prints the value -/
theorem run_endValues {as : List (Option (Threads numReaders numWriters) × Unit)}
    {tr : List (Output (Threads numReaders numWriters))}
    {s : St (Option (Threads numReaders numWriters)) (Process (Threads numReaders numWriters) S)
      (ProcessLoc (Loc Mode (Acquire AR AW) (Release RR RW) Local))}
    (h : Run (program F loops) (programStart numReaders numWriters F) as tr s) {p : MainPoint}
    (hp : s.loc none = .main p) :
    endValues tr = if p = .returned then [s.sh.mem.data] else [] := by
  induction h generalizing p with
  | nil => cases hp; rfl
  | @snoc as tr s h t c sh l es hs ih =>
    obtain ⟨-, u, -, hR⟩ := program_threads h
    obtain ⟨q, hq, hj, hend⟩ := hR.joined
    have happ : endValues (tr ++ es) = endValues tr ++ endValues es := List.filterMap_append
    rw [happ, ih hq]
    cases t with
    | none =>
      rw [hq] at hs
      obtain ⟨⟨sh', p', es'⟩, hm, he⟩ := Option.map_eq_some_iff.1 hs
      cases he
      obtain rfl : p' = p := by simpa using hp
      obtain ⟨h1, h2⟩ := main_endValues hm
      rw [if_neg h1, List.nil_append]
      rcases h2 with ⟨h2, h3⟩ | ⟨tmp, rfl, h3⟩
      · rw [h3, if_neg h2]
      · cases hm
        rw [h3, if_pos rfl, hend tmp rfl]
        rfl
    | some t =>
      rw [hR.loc t] at hs
      obtain ⟨⟨sh', l', es'⟩, hm, he⟩ := Option.map_eq_some_iff.1 hs
      cases he
      obtain rfl : q = p := by
        have hp' : s.loc none = .main p := by simpa using hp
        rw [hq] at hp'
        cases hp'
        rfl
      obtain ⟨hlive, h⟩ := thread_step hm
      have hne : q ≠ .returned := by
        rintro rfl
        have := hj t (by cases t <;> trivial)
        rw [hlive] at this
        cases this
      rw [if_neg hne, if_neg hne, List.nil_append]
      rcases h with ⟨mem, es'', -, -, rfl⟩ | ⟨-, -, -, -, rfl⟩
      · exact endValues_threads es''
      · rfl

/-- what a finished run of the program with the lock `F` has to have printed -/
def EndToEnd (F : RwFunctions S AR RR AW RW) (numReaders numWriters : ℕ) (loops : ℤ) : Prop :=
  ∀ (as : List (Option (Threads numReaders numWriters) × Unit)) (tr : List (Output (Threads numReaders numWriters)))
    (s : St (Option (Threads numReaders numWriters)) (Process (Threads numReaders numWriters) S)
      (ProcessLoc (Loc Mode (Acquire AR AW) (Release RR RW) Local))),
    Run (program F loops) (programStart numReaders numWriters F) as tr s → s.loc none = .main .returned →
      -- the final value, which `main` prints once
      s.sh.mem.data = numWriters * max loops 0 ∧ endValues tr = [(numWriters * max loops 0 : ℤ)] ∧
      -- the writers print 1, 2, ... up to it
      writes (tr.filterMap Output.event) = oneTo (numWriters * loops.toNat) ∧
      -- a reader prints the number of write sections completed before
      ∀ pre t (v : ℤ) post, tr.filterMap Output.event = pre ++ .client t (.read v) :: post → v = writeSections pre

theorem program_result (hF : Excludes F) : EndToEnd F numReaders numWriters loops := by
  intro as tr s h hret
  obtain ⟨bs, u, hrun, hR⟩ := program_threads h
  obtain ⟨p, hp, hj, -⟩ := hR.joined
  obtain rfl : .returned = p := by
    rw [hret] at hp
    cases hp
    rfl
  have hfin : ∀ t, Finished (readerWriter loops) u t := fun t => hR.exited t (hj t (by cases t <;> trivial))
  obtain ⟨h1, h2⟩ := finished_value hF hrun hfin
  have h3 : s.sh.mem.data = numWriters * max loops 0 := by rw [hR.mem]; exact h1
  refine ⟨h3, ?_, h2, (run_inv hF hrun).reads⟩
  rw [run_endValues h hret, if_pos rfl, h3]

/-- **End to end.** For any numbers of readers and writers and any loop count, every finished run of either program ends
with `value` equal to the number of writers times the number of iterations, its writers have printed 1, 2, ... up to
that number in order, and every value printed by a reader is the number of write sections completed at that moment. -/
theorem programs_correct (numReaders numWriters : ℕ) (loops : ℤ) :
    EndToEnd ReaderWriter.rwlock numReaders numWriters loops ∧
    EndToEnd ReaderWriterNostarve.rwlock numReaders numWriters loops :=
  ⟨program_result ReaderWriter.plain_excludes, program_result ReaderWriterNostarve.nostarve_exclusion⟩

/-- one reader and one writer, one iteration each: the writer first -/
theorem programs_correct_one :
    (∃ as tr s, Run (program ReaderWriter.rwlock 1) (programStart 1 1 ReaderWriter.rwlock) as tr s ∧
      s.sh.mem.data = 1 ∧ endValues tr = [1] ∧ writes (tr.filterMap Output.event) = [1]) ∧
    ∃ as tr s, Run (program ReaderWriterNostarve.rwlock 1)
      (programStart 1 1 ReaderWriterNostarve.rwlock) as tr s ∧
      s.sh.mem.data = 1 ∧ endValues tr = [1] ∧ writes (tr.filterMap Output.event) = [1] := by
  refine ⟨?_, ?_⟩
  · obtain ⟨s, tr, h, hret⟩ := exec_any_run (program ReaderWriter.rwlock 1) (programStart 1 1 ReaderWriter.rwlock)
      ((List.replicate 5 (none : Option (Threads 1 1)) ++ List.replicate 9 (some (Sum.inr 0)) ++
        List.replicate 17 (some (Sum.inl 0)) ++ List.replicate 6 none).map fun t => (t, ()))
      (fun s _ => s.loc none = .main .returned) (by decide +kernel)
    obtain ⟨h1, h2, h3, -⟩ := (programs_correct 1 1 1).1 _ _ _ h hret
    exact ⟨_, tr, s, h, h1, h2, h3⟩
  · obtain ⟨s, tr, h, hret⟩ := exec_any_run (program ReaderWriterNostarve.rwlock 1)
      (programStart 1 1 ReaderWriterNostarve.rwlock)
      ((List.replicate 5 (none : Option (Threads 1 1)) ++ List.replicate 11 (some (Sum.inr 0)) ++
        List.replicate 19 (some (Sum.inl 0)) ++ List.replicate 6 none).map fun t => (t, ()))
      (fun s _ => s.loc none = .main .returned) (by decide +kernel)
    obtain ⟨h1, h2, h3, -⟩ := (programs_correct 1 1 1).2 _ _ _ h hret
    exact ⟨_, tr, s, h, h1, h2, h3⟩

end OsPractice.ReaderWriterMain
