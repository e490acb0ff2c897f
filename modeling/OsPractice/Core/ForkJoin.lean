/-
A program whose main thread creates some threads, joins them all, and goes on alone. Library: nothing here names a
program.

The main thread shows `before`, creates the threads one after another, joins them in the same order, and runs `after`.
A thread runs only after it has been created and until it has exited, which takes a step of its own when its function
has returned. A join waits for the exit, and every creation succeeds.

Results:
- `run_split`: a run is a run of the threads, to which `main` adds nothing before the last join, and from then on a run
  of `main` alone;
- `run_length_le`: bounds for the two parts give one for the whole;
- `run_complete`: if the threads cannot get stuck before all of them have returned, a run ends in `after`;
- `complete_iff`: what such runs show is what the two parts show, one after the other.
-/
import OsPractice.Core.Interleave

namespace OsPractice.ForkJoin

open Interleave

/-- what a program does besides creating and joining its threads -/
structure Program (n : ℕ) (C S L A E : Type) where
  thread : Prog (Fin n) C S L E
  /-- the function of the thread has returned -/
  returned : L → Bool
  before : List E
  after : Prog Unit C S A E
  begin : A

inductive MainPc (A : Type) where
  | before
  | create (i : ℕ)
  | join (i : ℕ)
  | after (a : A)
  deriving DecidableEq, Repr

/-- memory, and what the thread library knows of each thread -/
structure Process (n : ℕ) (S : Type) where
  mem : S
  created : Fin n → Bool
  exited : Fin n → Bool

inductive Loc (L A : Type) where
  | main (p : MainPc A)
  | thread (l : L)
  deriving DecidableEq, Repr

variable {n : ℕ} {C S L A E : Type}

def Program.main (F : Program n C S L A E) (c : C) (sh : Process n S) :
    MainPc A → Option (Process n S × MainPc A × List E)
  | .before => some (sh, .create 0, F.before)
  | .create i =>
    if h : i < n then some ({ sh with created := Function.update sh.created ⟨i, h⟩ true }, .create (i + 1), [])
    else some (sh, .join 0, [])
  | .join i =>
    if h : i < n then
      if sh.exited ⟨i, h⟩ then some (sh, .join (i + 1), []) else none
    else some (sh, .after F.begin, [])
  | .after a => (F.after () c sh.mem a).map fun r => ({ sh with mem := r.1 }, .after r.2.1, r.2.2)

def Program.child (F : Program n C S L A E) (t : Fin n) (c : C) (sh : Process n S) (l : L) :
    Option (Process n S × L × List E) :=
  if sh.created t && !sh.exited t then
    if F.returned l then some ({ sh with exited := Function.update sh.exited t true }, l, [])
    else (F.thread t c sh.mem l).map fun r => ({ sh with mem := r.1 }, r.2.1, r.2.2)
  else none

def Program.prog (F : Program n C S L A E) : Prog (Option (Fin n)) C (Process n S) (Loc L A) E := fun t c sh l =>
  match t, l with
  | none, .main p => (F.main c sh p).map fun r => (r.1, .main r.2.1, r.2.2)
  | some t, .thread l => (F.child t c sh l).map fun r => (r.1, .thread r.2.1, r.2.2)
  | _, _ => none

def Program.start (_F : Program n C S L A E) (mem : S) (loc : Fin n → L) :
    St (Option (Fin n)) (Process n S) (Loc L A) :=
  ⟨⟨mem, fun _ => false, fun _ => false⟩, fun
    | none => .main .before
    | some t => .thread (loc t)⟩

/-! ## A run in two parts -/

/-- the threads that `main` has created -/
def Created : MainPc A → Fin n → Prop
  | .before, _ => False
  | .create i, t => t.val < i
  | _, _ => True

/-- the threads that `main` has joined -/
def Joined : MainPc A → Fin n → Prop
  | .join i, t => t.val < i
  | .after _, _ => True
  | _, _ => False

def InRange (n : ℕ) : MainPc A → Prop
  | .create i => i ≤ n
  | .join i => i ≤ n
  | _ => True

/-- the steps of `main` that create and join -/
def mainSteps (n : ℕ) : MainPc A → ℕ
  | .before => 0
  | .create i => 1 + i
  | .join i => n + 2 + i
  | .after _ => 2 * n + 3

/-- what `main` has shown before it ran `after` -/
def Program.shown (F : Program n C S L A E) : MainPc A → List E
  | .before => []
  | _ => F.before

/-- `main` alone, from the memory `x` that the threads have left -/
def Program.Rest (F : Program n C S L A E) (x y : S) (cs : List (Unit × C)) (tr : List E) : MainPc A → Prop
  | .after a => Run F.after ⟨x, fun _ => F.begin⟩ cs tr ⟨y, fun _ => a⟩
  | _ => cs = [] ∧ tr = [] ∧ y = x

/-- the run has come to `s`: the threads to `u` with the steps `bs` and the trace `tr₁`, `main` alone after them with
`cs` and `tr₂` -/
structure Split (F : Program n C S L A E) (mem : S) (loc : Fin n → L) (as : List (Option (Fin n) × C)) (tr : List E)
    (s : St (Option (Fin n)) (Process n S) (Loc L A)) (p : MainPc A) (bs : List (Fin n × C)) (tr₁ : List E)
    (u : St (Fin n) S L) (cs : List (Unit × C)) (tr₂ : List E) : Prop where
  main : s.loc none = .main p
  thread : ∀ t, s.loc (some t) = .thread (u.loc t)
  created : ∀ t, s.sh.created t = true ↔ Created p t
  exited : ∀ t, s.sh.exited t = true → F.returned (u.loc t) = true
  joined : ∀ t, Joined p t → s.sh.exited t = true
  range : InRange n p
  run : Run F.thread ⟨mem, loc⟩ bs tr₁ u
  trace : tr = F.shown p ++ tr₁ ++ tr₂
  quiet : p = .before → bs = [] ∧ tr₁ = []
  rest : F.Rest u.sh s.sh.mem cs tr₂ p
  length : as.length = bs.length + cs.length + mainSteps n p + total Bool.toNat s.sh.exited

section Runs

variable {F : Program n C S L A E} {mem : S} {loc : Fin n → L} {as : List (Option (Fin n) × C)} {tr tr₁ tr₂ : List E}
  {s : St (Option (Fin n)) (Process n S) (Loc L A)} {p : MainPc A} {bs : List (Fin n × C)} {u : St (Fin n) S L}
  {cs : List (Unit × C)}

theorem Split.start : Split F mem loc [] [] (F.start mem loc) .before [] [] ⟨mem, loc⟩ [] [] where
  main := rfl
  thread _ := rfl
  created t := by simp [Program.start, Created]
  exited t ht := by simp [Program.start] at ht
  joined t ht := by cases ht
  range := trivial
  run := .nil
  trace := rfl
  quiet _ := ⟨rfl, rfl⟩
  rest := ⟨rfl, rfl, rfl⟩
  length := by simp [mainSteps, Program.start, total]

theorem Split.main_step (h : Split F mem loc as tr s p bs tr₁ u cs tr₂) {c : C} {sh : Process n S} {p' : MainPc A}
    {es : List E} (hs : F.main c s.sh p = some (sh, p', es)) :
    ∃ cs' tr₂', Split F mem loc (as ++ [(none, c)]) (tr ++ es) (s.move none sh (.main p')) p' bs tr₁ u cs' tr₂' := by
  have hmain : (s.move none sh (.main p')).loc none = .main p' := by simp
  have hthread : ∀ t, (s.move none sh (.main p')).loc (some t) = .thread (u.loc t) := fun t => by
    simpa using h.thread t
  have hlen := h.length
  have htr := h.trace
  have hrange := h.range
  cases p with
  | before =>
    cases hs
    obtain ⟨rfl, rfl⟩ := h.quiet rfl
    obtain ⟨rfl, rfl, hmem⟩ := h.rest
    refine ⟨[], [], hmain, hthread, ?_, h.exited, fun t ht => (by cases ht), Nat.zero_le _, h.run, ?_,
      fun hp => (by cases hp), ⟨rfl, rfl, hmem⟩, ?_⟩
    · intro t
      simp [h.created t, Created]
    · simp [htr, Program.shown]
    · simp only [mainSteps, List.length_append, List.length_singleton, St.move_sh] at hlen ⊢
      omega
  | create i =>
    obtain ⟨rfl, rfl, hmem⟩ := h.rest
    simp only [InRange] at hrange
    simp only [Program.main] at hs
    split_ifs at hs with hi
    · cases hs
      refine ⟨[], [], hmain, hthread, ?_, h.exited, fun t ht => (by cases ht), hi, h.run,
        by simpa [Program.shown] using htr, fun hp => (by cases hp), ⟨rfl, rfl, hmem⟩, ?_⟩
      · intro t
        have ht := h.created t
        simp only [Created] at ht ⊢
        by_cases hti : t = ⟨i, hi⟩
        · simp [hti]
        · have hne : t.val ≠ i := fun he => hti (Fin.ext he)
          simp only [St.move_sh, Function.update_of_ne hti, ht]
          omega
      · simp only [mainSteps, List.length_append, List.length_singleton, St.move_sh] at hlen ⊢
        omega
    · cases hs
      refine ⟨[], [], hmain, hthread, ?_, h.exited, fun t ht => absurd ht (Nat.not_lt_zero _), Nat.zero_le _, h.run,
        by simpa [Program.shown] using htr, fun hp => (by cases hp), ⟨rfl, rfl, hmem⟩, ?_⟩
      · intro t
        have ht := h.created t
        simp only [Created, iff_true] at ht ⊢
        exact ht.2 (by omega)
      · simp only [mainSteps, List.length_append, List.length_singleton, St.move_sh] at hlen ⊢
        omega
  | join i =>
    obtain ⟨rfl, rfl, hmem⟩ := h.rest
    simp only [InRange] at hrange
    simp only [Program.main] at hs
    split_ifs at hs with hi he
    · cases hs
      refine ⟨[], [], hmain, hthread, h.created, h.exited, ?_, hi, h.run, by simpa [Program.shown] using htr,
        fun hp => (by cases hp), ⟨rfl, rfl, hmem⟩, ?_⟩
      · intro t ht
        rcases Nat.lt_succ_iff_lt_or_eq.1 ht with h1 | h1
        · exact h.joined t h1
        · obtain rfl : t = ⟨i, hi⟩ := Fin.ext h1
          exact he
      · simp only [mainSteps, List.length_append, List.length_singleton, St.move_sh] at hlen ⊢
        omega
    · cases hs
      have hall : ∀ t : Fin n, t.val < i := fun t => by omega
      refine ⟨[], [], hmain, hthread, h.created, h.exited, fun t _ => h.joined t (hall t), trivial, h.run,
        by simpa [Program.shown] using htr, fun hp => (by cases hp), ?_, ?_⟩
      · simp only [St.move_sh, hmem]
        exact .nil
      · simp only [mainSteps, List.length_append, List.length_singleton, St.move_sh] at hlen ⊢
        omega
  | after a =>
    obtain ⟨⟨m, a', es'⟩, ha, he⟩ := Option.map_eq_some_iff.1 hs
    cases he
    refine ⟨cs ++ [((), c)], tr₂ ++ es', hmain, hthread, h.created, h.exited, h.joined, trivial, h.run, ?_,
      fun hp => (by cases hp), ?_, ?_⟩
    · simp [htr, Program.shown]
    · have hrest := (h.rest : Run F.after _ cs tr₂ _).snoc ha
      have hmove : (⟨s.sh.mem, fun _ => a⟩ : St Unit S A).move () m a' = ⟨m, fun _ => a'⟩ := by
        simp only [St.move]
        congr 1
      rwa [hmove] at hrest
    · simp only [mainSteps, List.length_append, List.length_singleton, St.move_sh] at hlen ⊢
      omega

theorem Split.child_step (h : Split F mem loc as tr s p bs tr₁ u cs tr₂) {t : Fin n} {c : C} {sh : Process n S}
    {l : L} {es : List E} (hs : F.child t c s.sh (u.loc t) = some (sh, l, es)) :
    ∃ bs' tr₁' u', Split F mem loc (as ++ [(some t, c)]) (tr ++ es) (s.move (some t) sh (.thread l)) p bs' tr₁' u' cs
      tr₂ := by
  have hlen := h.length
  have hmain : (s.move (some t) sh (.thread l)).loc none = .main p := by simpa using h.main
  unfold Program.child at hs
  split_ifs at hs with hc hret
  · -- the thread exits
    cases hs
    obtain ⟨hcreated, hlive⟩ : s.sh.created t = true ∧ s.sh.exited t = false := by simpa using hc
    refine ⟨bs, tr₁, u, hmain, ?_, h.created, ?_, ?_, h.range, h.run, by simpa using h.trace, h.quiet, ?_, ?_⟩
    · intro v
      by_cases hv : v = t
      · simp [hv]
      · simpa [hv] using h.thread v
    · intro v hv
      by_cases hvt : v = t
      · rw [hvt, hret]
      · exact h.exited v (by simpa [hvt] using hv)
    · intro v hv
      by_cases hvt : v = t
      · simp [hvt]
      · simpa [hvt] using h.joined v hv
    · exact h.rest
    · have htotal := total_update Bool.toNat s.sh.exited t true
      simp only [hlive, Bool.toNat_false, Bool.toNat_true] at htotal
      simp only [List.length_append, List.length_singleton, St.move_sh]
      omega
  · obtain ⟨⟨m, l', es'⟩, ht, he⟩ := Option.map_eq_some_iff.1 hs
    cases he
    obtain ⟨hcreated, hlive⟩ : s.sh.created t = true ∧ s.sh.exited t = false := by simpa using hc
    have hnot : ∀ a, p ≠ .after a := by
      rintro a rfl
      have hex := h.joined t trivial
      rw [hlive] at hex
      cases hex
    have hbefore : p ≠ .before := by
      rintro rfl
      exact (h.created t).1 hcreated
    obtain ⟨rfl, rfl, hmem⟩ : cs = [] ∧ tr₂ = [] ∧ s.sh.mem = u.sh := by
      have hrest := h.rest
      cases p with
      | after a => exact absurd rfl (hnot a)
      | _ => exact hrest
    rw [hmem] at ht
    refine ⟨bs ++ [(t, c)], tr₁ ++ es', u.move t m l', hmain, ?_, h.created, ?_, h.joined, h.range, h.run.snoc ht, ?_,
      fun hp => absurd hp hbefore, ?_, ?_⟩
    · intro v
      by_cases hv : v = t
      · simp [hv]
      · simpa [hv] using h.thread v
    · intro v hv
      have hvt : v ≠ t := by
        rintro rfl
        simp only [St.move_sh] at hv
        rw [hlive] at hv
        cases hv
      simpa [hvt] using h.exited v hv
    · simp [h.trace]
    · cases p with
      | after a => exact absurd rfl (hnot a)
      | _ => exact ⟨rfl, rfl, rfl⟩
    · simp only [List.length_append, List.length_singleton, St.move_sh]
      omega

/-- **A run in two parts.** -/
theorem run_split (h : Run F.prog (F.start mem loc) as tr s) :
    ∃ p bs tr₁ u cs tr₂, Split F mem loc as tr s p bs tr₁ u cs tr₂ := by
  induction h with
  | nil => exact ⟨_, _, _, _, _, _, .start⟩
  | @snoc as tr s _ t c sh l es hs ih =>
    obtain ⟨p, bs, tr₁, u, cs, tr₂, hi⟩ := ih
    cases t with
    | none =>
      rw [hi.main] at hs
      obtain ⟨⟨sh', p', es'⟩, hm, he⟩ := Option.map_eq_some_iff.1 hs
      cases he
      obtain ⟨cs', tr₂', hi'⟩ := hi.main_step hm
      exact ⟨p', bs, tr₁, u, cs', tr₂', hi'⟩
    | some t =>
      rw [hi.thread t] at hs
      obtain ⟨⟨sh', l', es'⟩, hm, he⟩ := Option.map_eq_some_iff.1 hs
      cases he
      obtain ⟨bs', tr₁', u', hi'⟩ := hi.child_step hm
      exact ⟨p, bs', tr₁', u', cs, tr₂, hi'⟩

/-- a bound for the threads and one for `main` alone -/
theorem run_length_le {B B' : ℕ} (hB : ∀ bs tr u, Run F.thread ⟨mem, loc⟩ bs tr u → bs.length ≤ B)
    (hB' : ∀ bs tr u, Run F.thread ⟨mem, loc⟩ bs tr u → (∀ t, F.returned (u.loc t) = true) →
      ∀ cs tr' w, Run F.after ⟨u.sh, fun _ => F.begin⟩ cs tr' w → cs.length ≤ B')
    (h : Run F.prog (F.start mem loc) as tr s) : as.length ≤ B + B' + (3 * n + 3) := by
  obtain ⟨p, bs, tr₁, u, cs, tr₂, hi⟩ := run_split h
  have h1 := hB bs tr₁ u hi.run
  have h2 : cs.length ≤ B' := by
    have hrest := hi.rest
    cases p with
    | after a => exact hB' bs tr₁ u hi.run (fun t => hi.exited t (hi.joined t trivial)) cs tr₂ _ hrest
    | _ =>
      obtain ⟨rfl, -, -⟩ := hrest
      exact Nat.zero_le _
  have h3 : mainSteps n p ≤ 2 * n + 3 := by
    have hrange := hi.range
    cases p <;> simp only [mainSteps, InRange] at hrange ⊢ <;> omega
  have h4 : total Bool.toNat s.sh.exited ≤ n := by
    have hle : total Bool.toNat s.sh.exited ≤ ∑ _t : Fin n, 1 := Finset.sum_le_sum fun t _ => Bool.toNat_le _
    simpa using hle
  have h5 := hi.length
  omega

/-- **A run to the end.** The function of a thread that has returned takes no step, and while one has not some thread
can step. Then a run of the process that cannot go on has all threads returned and `main` at the end of `after`. -/
theorem run_complete [Nonempty C] (hret : ∀ t c x l, F.returned l = true → F.thread t c x l = none)
    (hlive : ∀ bs tr u, Run F.thread ⟨mem, loc⟩ bs tr u → (∃ t, F.returned (u.loc t) = false) →
      ∃ t, CanStep F.thread u t)
    (h : Run F.prog (F.start mem loc) as tr s) (hno : ∀ t, ¬ CanStep F.prog s t) :
    ∃ bs tr₁ u cs tr₂ a, Run F.thread ⟨mem, loc⟩ bs tr₁ u ∧ (∀ t, F.returned (u.loc t) = true) ∧
      Run F.after ⟨u.sh, fun _ => F.begin⟩ cs tr₂ ⟨s.sh.mem, fun _ => a⟩ ∧
      ¬ CanStep F.after ⟨s.sh.mem, fun _ => a⟩ () ∧ tr = F.before ++ tr₁ ++ tr₂ := by
  obtain ⟨p, bs, tr₁, u, cs, tr₂, hi⟩ := run_split h
  have hmain : ∀ c, F.main c s.sh p = none := by
    intro c
    have hn := not_canStep (hno none) c
    rw [hi.main] at hn
    simpa [Program.prog] using hn
  have hchild : ∀ t c, F.child t c s.sh (u.loc t) = none := by
    intro t c
    have hn := not_canStep (hno (some t)) c
    rw [hi.thread t] at hn
    simpa [Program.prog] using hn
  obtain ⟨c⟩ := ‹Nonempty C›
  cases p with
  | before => cases hmain c
  | create i =>
    have hm := hmain c
    simp only [Program.main] at hm
    split_ifs at hm
  | join i =>
    exfalso
    have hm := hmain c
    simp only [Program.main] at hm
    split_ifs at hm with hi' he
    -- the thread that `main` waits for has not exited; if its function had returned it could
    have hcreated : ∀ t, s.sh.created t = true := fun t => (hi.created t).2 trivial
    have hrun : F.returned (u.loc ⟨i, hi'⟩) = false := by
      have hn := hchild ⟨i, hi'⟩ c
      by_contra hr
      simp [Program.child, hcreated, he, Bool.eq_true_of_not_eq_false hr] at hn
    obtain ⟨t, c', hstep⟩ := hlive bs tr₁ u hi.run ⟨_, hrun⟩
    have hnot : F.returned (u.loc t) = false := by
      by_contra hr
      rw [hret t c' _ _ (by simpa using hr)] at hstep
      cases hstep
    have hlive' : s.sh.exited t = false := by
      by_contra hr
      rw [hi.exited t (by simpa using hr)] at hnot
      cases hnot
    have hn := hchild t c'
    obtain ⟨-, -, hmem⟩ := hi.rest
    simp only [Program.child, hcreated, hlive', hnot, hmem] at hn
    rw [Option.isSome_iff_exists] at hstep
    obtain ⟨r, hr⟩ := hstep
    simp [hr] at hn
  | after a =>
    refine ⟨bs, tr₁, u, cs, tr₂, a, hi.run, fun t => hi.exited t (hi.joined t trivial), hi.rest, ?_, hi.trace⟩
    rintro ⟨c', hc'⟩
    have hm := hmain c'
    simp only [Program.main, Option.map_eq_none_iff] at hm
    rw [hm] at hc'
    cases hc'

/-! ## Runs from their parts -/

/-- the first `i` threads have been created, the first `j` have exited -/
def known (x : S) (i j : ℕ) : Process n S := ⟨x, fun t => decide (t.val < i), fun t => decide (t.val < j)⟩

theorem update_lt {i : ℕ} (hi : i < n) :
    Function.update (fun t : Fin n => decide (t.val < i)) ⟨i, hi⟩ true = fun t => decide (t.val < i + 1) := by
  funext t
  by_cases ht : t = ⟨i, hi⟩
  · simp [ht]
  · have hne : t.val ≠ i := fun he => ht (Fin.ext he)
    simp only [Function.update_of_ne ht, decide_eq_decide]
    omega

/-- the process with `main` at `p` and the threads as `u` has them -/
def ahead (u : St (Fin n) S L) (sh : Process n S) (p : MainPc A) : St (Option (Fin n)) (Process n S) (Loc L A) :=
  ⟨sh, fun
    | none => .main p
    | some t => .thread (u.loc t)⟩

theorem start_eq (F : Program n C S L A E) (mem : S) (loc : Fin n → L) :
    F.start mem loc = ahead ⟨mem, loc⟩ (known mem 0 0) .before := by
  simp only [Program.start, ahead, known, Nat.not_lt_zero, decide_false]

theorem ahead_main (u : St (Fin n) S L) (sh sh' : Process n S) (p p' : MainPc A) :
    (ahead u sh p).move none sh' (.main p') = ahead u sh' p' := by
  unfold ahead St.move
  congr 1
  funext t
  cases t <;> simp

theorem ahead_thread (u : St (Fin n) S L) (sh sh' : Process n S) (p : MainPc A) (t : Fin n) (x : S) (l : L) :
    (ahead u sh p).move (some t) sh' (.thread l) = ahead (u.move t x l) sh' p := by
  unfold ahead St.move
  congr 1
  funext v
  cases v with
  | none => rfl
  | some v =>
    by_cases hv : v = t
    · simp [hv]
    · simp [hv]

theorem run_main {v : St (Option (Fin n)) (Process n S) (Loc L A)} {sh sh' : Process n S} {p' : MainPc A} {es : List E}
    {c : C} (h : Run F.prog v as tr (ahead u sh p)) (hs : F.main c sh p = some (sh', p', es)) :
    ∃ as', Run F.prog v as' (tr ++ es) (ahead u sh' p') := by
  have hs' : F.prog none c (ahead u sh p).sh ((ahead u sh p).loc none) = some (sh', .main p', es) := by
    simp [Program.prog, ahead, hs]
  have h' := h.snoc hs'
  rw [ahead_main] at h'
  exact ⟨_, h'⟩

theorem run_child {v : St (Option (Fin n)) (Process n S) (Loc L A)} {sh sh' : Process n S} {l : L} {es : List E} {c : C}
    {t : Fin n} (x : S) (h : Run F.prog v as tr (ahead u sh p)) (hs : F.child t c sh (u.loc t) = some (sh', l, es)) :
    ∃ as', Run F.prog v as' (tr ++ es) (ahead (u.move t x l) sh' p) := by
  have hs' : F.prog (some t) c (ahead u sh p).sh ((ahead u sh p).loc (some t)) = some (sh', .thread l, es) := by
    simp [Program.prog, ahead, hs]
  have h' := h.snoc hs'
  rw [ahead_thread _ _ _ _ _ x] at h'
  exact ⟨_, h'⟩

theorem run_create (c : C) (u : St (Fin n) S L) (x : S) {i : ℕ} (hi : i ≤ n) :
    ∃ as, Run F.prog (ahead u (known x 0 0) .before) as F.before (ahead u (known x i 0) (.create i)) := by
  induction i with
  | zero => simpa using run_main (F := F) (c := c) .nil rfl
  | succ i ih =>
    obtain ⟨as, h⟩ := ih (by omega)
    have hs : F.main c (known x i 0) (.create i) = some (known x (i + 1) 0, .create (i + 1), []) := by
      simp only [Program.main, dif_pos (show i < n from hi), known, update_lt]
    simpa using run_main h hs

/-- a run of the threads is one of the process once they have all been created -/
theorem run_threads (hret : ∀ t c x l, F.returned l = true → F.thread t c x l = none) {u₀ : St (Fin n) S L}
    (p : MainPc A) (h : Run F.thread u₀ bs tr u) :
    ∃ as, Run F.prog (ahead u₀ (known u₀.sh n 0) p) as tr (ahead u (known u.sh n 0) p) := by
  induction h with
  | nil => exact ⟨[], .nil⟩
  | @snoc bs tr u h t c x l es hs ih =>
    obtain ⟨as, hrun⟩ := ih
    have hnot : F.returned (u.loc t) = false := by
      by_contra hr
      rw [hret t c _ _ (by simpa using hr)] at hs
      cases hs
    refine run_child (c := c) x hrun ?_
    simp [Program.child, known, hnot, hs]

theorem run_join (c : C) (hall : ∀ t, F.returned (u.loc t) = true) {j : ℕ} (hj : j ≤ n) :
    ∃ as, Run F.prog (ahead u (known u.sh n 0) (.join 0)) as [] (ahead u (known u.sh n j) (.join j)) := by
  induction j with
  | zero => exact ⟨[], .nil⟩
  | succ j ih =>
    obtain ⟨as, h⟩ := ih (by omega)
    have hexit : F.child ⟨j, hj⟩ c (known u.sh n j) (u.loc ⟨j, hj⟩) =
        some (known u.sh n (j + 1), u.loc ⟨j, hj⟩, []) := by
      simp [Program.child, known, hall, update_lt]
    obtain ⟨as', h'⟩ := run_child u.sh h hexit
    rw [St.move_eq_self] at h'
    have hjoin : F.main c (known u.sh n (j + 1)) (.join j) = some (known u.sh n (j + 1), .join (j + 1), []) := by
      simp only [Program.main, dif_pos (show j < n from hj)]
      simp [known]
    simpa using run_main h' hjoin

theorem run_after {v w : St Unit S A} (h : Run F.after v cs tr w) :
    ∃ as, Run F.prog (ahead u (known v.sh n n) (.after (v.loc ()))) as tr
      (ahead u (known w.sh n n) (.after (w.loc ()))) := by
  induction h with
  | nil => exact ⟨[], .nil⟩
  | @snoc cs tr w h t c y a es hs ih =>
    obtain ⟨as, hrun⟩ := ih
    refine run_main (c := c) hrun ?_
    simp [Program.main, hs, known]

/-- **Complete runs.** The traces of the runs of the process that cannot go on. -/
theorem complete_iff [Nonempty C] (hret : ∀ t c x l, F.returned l = true → F.thread t c x l = none)
    (hlive : ∀ bs tr u, Run F.thread ⟨mem, loc⟩ bs tr u → (∃ t, F.returned (u.loc t) = false) →
      ∃ t, CanStep F.thread u t) :
    (∃ as s, Run F.prog (F.start mem loc) as tr s ∧ ∀ t, ¬ CanStep F.prog s t) ↔
      ∃ bs tr₁ u cs tr₂ w, Run F.thread ⟨mem, loc⟩ bs tr₁ u ∧ (∀ t, F.returned (u.loc t) = true) ∧
        Run F.after ⟨u.sh, fun _ => F.begin⟩ cs tr₂ w ∧ ¬ CanStep F.after w () ∧ tr = F.before ++ tr₁ ++ tr₂ := by
  constructor
  · rintro ⟨as, s, h, hno⟩
    obtain ⟨bs, tr₁, u, cs, tr₂, a, h1, h2, h3, h4, h5⟩ := run_complete hret hlive h hno
    exact ⟨bs, tr₁, u, cs, tr₂, _, h1, h2, h3, h4, h5⟩
  · rintro ⟨bs, tr₁, u, cs, tr₂, w, h1, h2, h3, h4, rfl⟩
    obtain ⟨c⟩ := ‹Nonempty C›
    obtain ⟨as₁, hr₁⟩ := run_create (F := F) c ⟨mem, loc⟩ mem le_rfl
    have hcreated : F.main c (known mem n 0) (.create n) = some (known mem n 0, .join 0, []) := by
      simp [Program.main]
    obtain ⟨as₂, hr₂⟩ := run_main hr₁ hcreated
    obtain ⟨as₃, hr₃⟩ := run_threads hret (.join 0) h1
    obtain ⟨as₄, hr₄⟩ := run_join c h2 le_rfl
    have hjoined : F.main c (known u.sh n n) (.join n) = some (known u.sh n n, .after F.begin, []) := by
      simp [Program.main]
    obtain ⟨as₅, hr₅⟩ := run_main ((hr₂.append hr₃).append hr₄) hjoined
    obtain ⟨as₆, hr₆⟩ := run_after (u := u) h3
    have hr := hr₅.append hr₆
    rw [← start_eq F] at hr
    refine ⟨_, _, by simpa using hr, ?_⟩
    · rintro t ⟨c', hc'⟩
      cases t with
      | none =>
        simp only [Program.prog, ahead, Program.main, Option.isSome_map] at hc'
        exact h4 ⟨c', hc'⟩
      | some t => simp [Program.prog, ahead, Program.child, known] at hc'

end Runs

/-! ## A last output -/

inductive EndPc where
  | shows
  | returned
  deriving DecidableEq, Repr

/-- show something of the memory and return -/
def showEnd (last : S → List E) : Prog Unit C S EndPc E := fun _ _ x pc =>
  match pc with
  | .shows => some (x, .returned, last x)
  | .returned => none

section Last

variable {last : S → List E} {x : S} {cs : List (Unit × C)} {tr : List E} {w : St Unit S EndPc}

theorem run_showEnd (h : Run (showEnd last) ⟨x, fun _ => .shows⟩ cs tr w) :
    w.loc () = .shows ∧ w.sh = x ∧ cs = [] ∧ tr = [] ∨ w.loc () = .returned ∧ cs.length = 1 ∧ tr = last x := by
  induction h with
  | nil => exact .inl ⟨rfl, rfl, rfl, rfl⟩
  | @snoc cs tr w h t c y a es hs ih =>
    rcases ih with ⟨h1, h2, rfl, rfl⟩ | ⟨h1, -, -⟩
    · rw [show w.loc t = .shows from h1, h2] at hs
      cases hs
      exact .inr ⟨by simp, rfl, rfl⟩
    · rw [show w.loc t = .returned from h1] at hs
      cases hs

theorem length_showEnd (h : Run (showEnd last) ⟨x, fun _ => .shows⟩ cs tr w) : cs.length ≤ 1 := by
  rcases run_showEnd h with ⟨-, -, rfl, -⟩ | ⟨-, hlen, -⟩
  · exact Nat.zero_le _
  · exact hlen.le

/-- the complete runs of a program that shows something at its end -/
theorem complete_iff_last [Nonempty C] {F : Program n C S L EndPc E} (hafter : F.after = showEnd last)
    (hbegin : F.begin = .shows) (hret : ∀ t c x l, F.returned l = true → F.thread t c x l = none) {mem : S}
    {loc : Fin n → L}
    (hlive : ∀ bs tr u, Run F.thread ⟨mem, loc⟩ bs tr u → (∃ t, F.returned (u.loc t) = false) →
      ∃ t, CanStep F.thread u t) :
    (∃ as s, Run F.prog (F.start mem loc) as tr s ∧ ∀ t, ¬ CanStep F.prog s t) ↔
      ∃ bs tr₁ u, Run F.thread ⟨mem, loc⟩ bs tr₁ u ∧ (∀ t, F.returned (u.loc t) = true) ∧
        tr = F.before ++ tr₁ ++ last u.sh := by
  rw [complete_iff hret hlive, hafter, hbegin]
  obtain ⟨c⟩ := ‹Nonempty C›
  constructor
  · rintro ⟨bs, tr₁, u, cs, tr₂, w, h1, h2, h3, h4, rfl⟩
    rcases run_showEnd h3 with ⟨hloc, -⟩ | ⟨-, -, rfl⟩
    · exact absurd ⟨c, by rw [hloc]; rfl⟩ h4
    · exact ⟨bs, tr₁, u, h1, h2, rfl⟩
  · rintro ⟨bs, tr₁, u, h1, h2, rfl⟩
    have hstep : showEnd last () c u.sh .shows = some (u.sh, .returned, last u.sh) := rfl
    refine ⟨bs, tr₁, u, _, _, _, h1, h2, Run.single hstep, ?_, rfl⟩
    rintro ⟨c', hc'⟩
    simp [showEnd] at hc'

end Last

end OsPractice.ForkJoin
