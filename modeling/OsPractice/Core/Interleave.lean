/-
Threads interleaved over a shared state. Library: nothing here names a program.

A thread's code is a partial function (`Prog`): thread `t` in local state `l` makes one atomic step on the shared state
`sh` under a choice `c` of the environment (what an allocator returns, which waiter a signal wakes), and emits a list of
events. `none` means that the step is blocked, or that the thread has finished. A run takes the steps of the threads in
any order (`Run`).

Results:
- `Run.append`: runs compose;
- `Run.inv`, `Run.inv_trace`: what one step preserves, a whole run preserves;
- `Run.complete`: where runs are bounded, there is one that cannot go on;
- `RunIf.simulate`, `Run.simulate`: a step-by-step simulation (one step against any number of steps with the same
  visible events) gives trace inclusion;
- `Run.map`, `Run.lift`: the runs of a program are the images of those of another one, of which it is the image;
- `RunIf`: the runs whose steps all meet a condition on the state before the step;
- `exec_run`, `exec_any_run`: the executable scheduler produces runs, so a concrete schedule can be evaluated;
- `Alone.run`, `run_each`: threads running alone, one after another, give a run;
- `total_update`: how a sum over all threads changes when one thread moves. Counting invariants are stated with `total`.
-/
import Mathlib.Tactic
import Mathlib.Algebra.BigOperators.Group.Finset.Piecewise
import Mathlib.Algebra.Order.BigOperators.Group.Finset
import Mathlib.Data.Fintype.BigOperators

namespace OsPractice.Interleave

/-- the code of the threads: one atomic step of thread `t` under choice `c` -/
abbrev Prog (T C S L E : Type) := T → C → S → L → Option (S × L × List E)

structure St (T S L : Type) where
  sh : S
  loc : T → L

variable {T C S L E : Type}

/-- the threads of a concrete schedule are often two or three, with their numbers for names -/
instance neZero_two : NeZero 2 := ⟨by decide⟩

instance neZero_three : NeZero 3 := ⟨by decide⟩

/-- thread `t` can take a step -/
def CanStep (P : Prog T C S L E) (s : St T S L) (t : T) : Prop := ∃ c, (P t c s.sh (s.loc t)).isSome

theorem not_canStep {P : Prog T C S L E} {s : St T S L} {t : T} (h : ¬ CanStep P s t) (c : C) :
    P t c s.sh (s.loc t) = none := by
  by_contra hc
  exact h ⟨c, Option.isSome_iff_ne_none.2 hc⟩

/-- a thread that is blocked, where the environment has nothing to choose -/
theorem not_canStep_of_isNone {P : Prog T Unit S L E} {s : St T S L} {t : T} (h : (P t () s.sh (s.loc t)).isNone) :
    ¬ CanStep P s t := by
  rintro ⟨c, hc⟩
  rw [Option.isNone_iff_eq_none.1 h] at hc
  cases hc

/-! ## Sums over all threads -/

/-- the sum of `w` over the local states of all threads -/
def total [Fintype T] (w : L → ℕ) (loc : T → L) : ℕ := ∑ t, w (loc t)

theorem le_total [Fintype T] (w : L → ℕ) (loc : T → L) (t : T) : w (loc t) ≤ total w loc :=
  Finset.single_le_sum (f := fun u => w (loc u)) (fun _ _ => Nat.zero_le _) (Finset.mem_univ t)

theorem exists_of_total_pos [Fintype T] (w : L → ℕ) (loc : T → L) (h : 0 < total w loc) : ∃ t, 0 < w (loc t) := by
  by_contra hc
  push Not at hc
  have : total w loc = 0 := Finset.sum_eq_zero fun t _ => Nat.le_zero.1 (hc t)
  omega

theorem total_eq_zero [Fintype T] {w : L → ℕ} {loc : T → L} (h : ∀ t, w (loc t) = 0) : total w loc = 0 :=
  Finset.sum_eq_zero fun t _ => h t

theorem total_eq_single [Fintype T] {w : L → ℕ} {loc : T → L} (t : T) (h : ∀ u, u ≠ t → w (loc u) = 0) :
    total w loc = w (loc t) :=
  Finset.sum_eq_single t (fun u _ hu => h u hu) fun ht => absurd (Finset.mem_univ t) ht

theorem total_congr [Fintype T] {v w : L → ℕ} {loc : T → L} (h : ∀ t, v (loc t) = w (loc t)) :
    total v loc = total w loc :=
  Finset.sum_congr rfl fun t _ => h t

theorem total_const [Fintype T] (w : L → ℕ) (l : L) : total w (fun _ : T => l) = Fintype.card T * w l := by
  simp [total]

variable [DecidableEq T]

theorem total_update [Fintype T] (w : L → ℕ) (loc : T → L) (t : T) (l : L) :
    total w (Function.update loc t l) + w (loc t) = total w loc + w l := by
  have h1 := Finset.add_sum_erase Finset.univ (fun u => w (loc u)) (Finset.mem_univ t)
  have h2 := Finset.add_sum_erase Finset.univ (fun u => w (Function.update loc t l u)) (Finset.mem_univ t)
  have h3 : ∑ u ∈ Finset.univ.erase t, w (Function.update loc t l u) = ∑ u ∈ Finset.univ.erase t, w (loc u) :=
    Finset.sum_congr rfl fun u hu => by rw [Function.update_of_ne (Finset.ne_of_mem_erase hu)]
  simp only [Function.update_self] at h2
  unfold total
  omega

theorem add_le_total [Fintype T] (w : L → ℕ) (loc : T → L) {t u : T} (h : t ≠ u) :
    w (loc t) + w (loc u) ≤ total w loc := by
  have h1 := Finset.add_sum_erase Finset.univ (fun v => w (loc v)) (Finset.mem_univ t)
  have h2 := Finset.single_le_sum (f := fun v => w (loc v)) (s := Finset.univ.erase t) (fun _ _ => Nat.zero_le _)
    (Finset.mem_erase.2 ⟨h.symm, Finset.mem_univ u⟩)
  unfold total
  omega

omit [DecidableEq T] in
/-- how a sum changes when one of its terms does -/
theorem sum_change {ι M : Type} [Fintype ι] [DecidableEq ι] [AddCommGroup M] {f g : ι → M} (i : ι)
    (h : ∀ j, j ≠ i → g j = f j) : ∑ j, g j = ∑ j, f j + (g i - f i) := by
  have h1 := Finset.add_sum_erase Finset.univ f (Finset.mem_univ i)
  have h2 := Finset.add_sum_erase Finset.univ g (Finset.mem_univ i)
  have h3 : ∑ j ∈ Finset.univ.erase i, g j = ∑ j ∈ Finset.univ.erase i, f j :=
    Finset.sum_congr rfl fun j hj => h j (Finset.ne_of_mem_erase hj)
  rw [← h1, ← h2, h3]
  abel

/-- two weights that differ by `k` at one thread and agree elsewhere -/
theorem total_eq_add [Fintype T] {v w : L → ℕ} {loc : T → L} (t : T) {k : ℕ} (ht : w (loc t) = v (loc t) + k)
    (h : ∀ u, u ≠ t → w (loc u) = v (loc u)) : total w loc = total v loc + k := by
  have h1 := Finset.add_sum_erase Finset.univ (fun u => w (loc u)) (Finset.mem_univ t)
  have h2 := Finset.add_sum_erase Finset.univ (fun u => v (loc u)) (Finset.mem_univ t)
  have h3 : ∑ u ∈ Finset.univ.erase t, w (loc u) = ∑ u ∈ Finset.univ.erase t, v (loc u) :=
    Finset.sum_congr rfl fun u hu => h u (Finset.ne_of_mem_erase hu)
  unfold total
  omega

/-- two threads that both count in a total of at most one are the same thread -/
theorem eq_of_total_le_one [Fintype T] {w : L → ℕ} {loc : T → L} (h : total w loc ≤ 1) {t u : T}
    (ht : 0 < w (loc t)) (hu : 0 < w (loc u)) : t = u := by
  by_contra hne
  have := add_le_total w loc hne
  omega

/-! ## Runs -/

/-- `s` after thread `t` has moved to the shared state `sh` and the local state `l` -/
def St.move (s : St T S L) (t : T) (sh : S) (l : L) : St T S L := ⟨sh, Function.update s.loc t l⟩

@[simp] theorem St.move_sh (s : St T S L) (t : T) (sh : S) (l : L) : (s.move t sh l).sh = sh := rfl

@[simp] theorem St.move_loc (s : St T S L) (t : T) (sh : S) (l : L) :
    (s.move t sh l).loc = Function.update s.loc t l := rfl

@[simp] theorem St.move_move (s : St T S L) (t : T) (sh sh' : S) (l l' : L) :
    (s.move t sh l).move t sh' l' = s.move t sh' l' := by
  simp [St.move]

/-- a step that changes the shared state only -/
@[simp] theorem St.move_loc_self (s : St T S L) (t : T) (sh : S) : (s.move t sh (s.loc t)).loc = s.loc :=
  Function.update_eq_self t s.loc

theorem St.move_eq_self (s : St T S L) (t : T) : s.move t s.sh (s.loc t) = s := by
  simp [St.move, Function.update_eq_self]

/-- what holds of the new local state, and of those of the other threads, holds of all after a move -/
theorem St.forall_move {p : T → L → Prop} (s : St T S L) {t : T} (sh : S) {l : L} (ht : p t l)
    (hother : ∀ u, u ≠ t → p u (s.loc u)) (u : T) : p u ((s.move t sh l).loc u) :=
  (Function.forall_update_iff s.loc p).2 ⟨ht, hother⟩ u

/-- where an event of a trace stands when the trace grows -/
theorem split_append {tr es pre post : List E} {e : E} (h : tr ++ es = pre ++ e :: post) :
    (∃ post', tr = pre ++ e :: post') ∨ ∃ pre', pre = tr ++ pre' ∧ es = pre' ++ e :: post := by
  rcases List.append_eq_append_iff.1 h with ⟨bs, hp, he⟩ | ⟨bs, ht, he⟩
  · exact .inr ⟨bs, hp, he⟩
  · rcases bs with _ | ⟨b, bs⟩
    · exact .inr ⟨[], by simpa using ht.symm, by simpa using he.symm⟩
    · obtain ⟨rfl, -⟩ := List.cons_eq_cons.1 he
      exact .inl ⟨bs, ht⟩

/-- a relation between any two elements of a list, the first of which stands before the second -/
theorem pairwise_of_split {r : E → E → Prop} {l : List E}
    (h : ∀ pre a mid b post, l = pre ++ a :: (mid ++ b :: post) → r a b) : l.Pairwise r := by
  induction l with
  | nil => exact List.Pairwise.nil
  | cons x l ih =>
    refine List.pairwise_cons.2 ⟨?_, ih fun pre a mid b post he => h (x :: pre) a mid b post (by rw [he]; rfl)⟩
    intro b hb
    obtain ⟨mid, post, rfl⟩ := List.append_of_mem hb
    exact h [] x mid b post rfl

/-- the run from `s₀` that takes the scheduled steps `as`, emits `tr` and ends in the last argument -/
inductive Run (P : Prog T C S L E) (s₀ : St T S L) : List (T × C) → List E → St T S L → Prop where
  | nil : Run P s₀ [] [] s₀
  | snoc {as : List (T × C)} {tr : List E} {s : St T S L} (h : Run P s₀ as tr s) {t : T} {c : C} {sh : S} {l : L}
      {es : List E} (hs : P t c s.sh (s.loc t) = some (sh, l, es)) :
      Run P s₀ (as ++ [(t, c)]) (tr ++ es) (s.move t sh l)

variable {P : Prog T C S L E} {s₀ s s' : St T S L}

theorem Run.single {t : T} {c : C} {sh : S} {l : L} {es : List E} (hs : P t c s.sh (s.loc t) = some (sh, l, es)) :
    Run P s [(t, c)] es (s.move t sh l) := Run.nil.snoc hs

theorem Run.append {as bs : List (T × C)} {tr tr' : List E} (h : Run P s₀ as tr s) (h' : Run P s bs tr' s') :
    Run P s₀ (as ++ bs) (tr ++ tr') s' := by
  induction h' with
  | nil => simpa using h
  | snoc _ hs ih => rw [← List.append_assoc, ← List.append_assoc]; exact ih.snoc hs

/-- prefix a run with one step -/
theorem Run.cons {t : T} {c : C} {sh : S} {l : L} {es tr : List E} {as : List (T × C)}
    (hs : P t c s.sh (s.loc t) = some (sh, l, es)) (h : Run P (s.move t sh l) as tr s') :
    Run P s ((t, c) :: as) (es ++ tr) s' := (Run.single hs).append h

/-- **Invariants.** What holds at the start and is preserved by every step holds in every state a run reaches. -/
theorem Run.inv {I : St T S L → Prop} {as : List (T × C)} {tr : List E} (h : Run P s₀ as tr s) (h0 : I s₀)
    (hstep : ∀ s t c sh l es, I s → P t c s.sh (s.loc t) = some (sh, l, es) → I (s.move t sh l)) : I s := by
  induction h with
  | nil => exact h0
  | snoc _ hs ih => exact hstep _ _ _ _ _ _ ih hs

/-- **Invariants over the trace.** As `Run.inv`, for a property of the events emitted so far and the state. -/
theorem Run.inv_trace {I : List E → St T S L → Prop} {as : List (T × C)} {tr : List E} (h : Run P s₀ as tr s)
    (h0 : I [] s₀)
    (hstep : ∀ tr s t c sh l es, I tr s → P t c s.sh (s.loc t) = some (sh, l, es) → I (tr ++ es) (s.move t sh l)) :
    I tr s := by
  induction h with
  | nil => exact h0
  | snoc _ hs ih => exact hstep _ _ _ _ _ _ _ ih hs

/-- **Completion.** Where the length of the runs is bounded, a run can be taken to a state in which no thread can
step. -/
theorem Run.complete {B : ℕ} (hB : ∀ as tr s, Run P s₀ as tr s → as.length ≤ B) :
    ∃ as tr s, Run P s₀ as tr s ∧ ∀ t, ¬ CanStep P s t := by
  by_contra hno
  push Not at hno
  have hlong : ∀ k, ∃ as tr s, Run P s₀ as tr s ∧ as.length = k := by
    intro k
    induction k with
    | zero => exact ⟨[], [], s₀, .nil, rfl⟩
    | succ k ih =>
      obtain ⟨as, tr, s, h, rfl⟩ := ih
      obtain ⟨t, c, hc⟩ := hno as tr s h
      obtain ⟨⟨x, l, es⟩, hs⟩ := Option.isSome_iff_exists.1 hc
      exact ⟨as ++ [(t, c)], _, _, h.snoc hs, List.length_append⟩
  obtain ⟨as, tr, s, h, hlen⟩ := hlong (B + 1)
  have := hB as tr s h
  omega

/-! ## Images of programs -/

/-- a state seen through a map of the shared state and one of the local states -/
def St.map {S' L' : Type} (f : S → S') (g : L → L') (s : St T S L) : St T S' L' := ⟨f s.sh, fun t => g (s.loc t)⟩

theorem St.map_move {S' L' : Type} (f : S → S') (g : L → L') (s : St T S L) (t : T) (sh : S) (l : L) :
    (s.move t sh l).map f g = (s.map f g).move t (f sh) (g l) := by
  have hloc : (fun u => g (Function.update s.loc t l u)) = Function.update (fun u => g (s.loc u)) t (g l) := by
    funext u
    by_cases hu : u = t
    · rw [hu, Function.update_self, Function.update_self]
    · rw [Function.update_of_ne hu, Function.update_of_ne hu]
  exact congrArg (St.mk (f sh)) hloc

section Image

variable {S' L' : Type} {Q : Prog T C S' L' E} {f : S → S'} {g : L → L'}

/-- every step of `Q` from the image of a state is the image of a step of `P` -/
def IsImage (P : Prog T C S L E) (Q : Prog T C S' L' E) (f : S → S') (g : L → L') : Prop :=
  ∀ t c x l, Q t c (f x) (g l) = (P t c x l).map fun r => (f r.1, g r.2.1, r.2.2)

theorem Run.map (hQ : IsImage P Q f g) {as : List (T × C)} {tr : List E} (h : Run P s₀ as tr s) :
    Run Q (s₀.map f g) as tr (s.map f g) := by
  induction h with
  | nil => exact .nil
  | @snoc _ _ s _ t c _ _ _ hs ih =>
    rw [St.map_move]
    refine ih.snoc ?_
    have himage := hQ t c s.sh (s.loc t)
    rwa [hs] at himage

theorem Run.lift (hQ : IsImage P Q f g) {as : List (T × C)} {tr : List E} {u : St T S' L'}
    (h : Run Q (s₀.map f g) as tr u) : ∃ s, Run P s₀ as tr s ∧ u = s.map f g := by
  induction h with
  | nil => exact ⟨s₀, .nil, rfl⟩
  | @snoc _ _ _ _ t c _ _ _ hs ih =>
    obtain ⟨s, hrun, rfl⟩ := ih
    obtain ⟨⟨x, l, es⟩, hstep, he⟩ := Option.map_eq_some_iff.1 ((hQ t c s.sh (s.loc t)).symm.trans hs)
    cases he
    exact ⟨s.move t x l, hrun.snoc hstep, (St.map_move f g s t x l).symm⟩

end Image

/-! ## Runs under a condition -/

/-- the runs each of whose steps meets the condition `ok`: the state before the step, the thread and its choice -/
inductive RunIf (P : Prog T C S L E) (ok : St T S L → T → C → Prop) (s₀ : St T S L) :
    List (T × C) → List E → St T S L → Prop where
  | nil : RunIf P ok s₀ [] [] s₀
  | snoc {as : List (T × C)} {tr : List E} {s : St T S L} (h : RunIf P ok s₀ as tr s) {t : T} {c : C} {sh : S} {l : L}
      {es : List E} (hok : ok s t c) (hs : P t c s.sh (s.loc t) = some (sh, l, es)) :
      RunIf P ok s₀ (as ++ [(t, c)]) (tr ++ es) (s.move t sh l)

section RunIf

variable {ok : St T S L → T → C → Prop}

theorem RunIf.run {as : List (T × C)} {tr : List E} (h : RunIf P ok s₀ as tr s) : Run P s₀ as tr s := by
  induction h with
  | nil => exact .nil
  | snoc _ _ hs ih => exact ih.snoc hs

theorem Run.runIf {as : List (T × C)} {tr : List E} (h : Run P s₀ as tr s) :
    RunIf P (fun _ _ _ => True) s₀ as tr s := by
  induction h with
  | nil => exact .nil
  | snoc _ hs ih => exact ih.snoc trivial hs

/-- as `Run.inv_trace`, for steps that meet the condition -/
theorem RunIf.inv_trace {I : List E → St T S L → Prop} {as : List (T × C)} {tr : List E} (h : RunIf P ok s₀ as tr s)
    (h0 : I [] s₀)
    (hstep : ∀ tr s t c sh l es, I tr s → ok s t c → P t c s.sh (s.loc t) = some (sh, l, es) →
      I (tr ++ es) (s.move t sh l)) : I tr s := by
  induction h with
  | nil => exact h0
  | snoc _ hok hs ih => exact hstep _ _ _ _ _ _ _ ih hok hs

theorem RunIf.cons {t : T} {c : C} {sh : S} {l : L} {es tr : List E} {as : List (T × C)} (hok : ok s t c)
    (hs : P t c s.sh (s.loc t) = some (sh, l, es)) (h : RunIf P ok (s.move t sh l) as tr s') :
    RunIf P ok s ((t, c) :: as) (es ++ tr) s' := by
  induction h with
  | nil => simpa using RunIf.nil.snoc hok hs
  | snoc _ hok' hs' ih =>
    rw [← List.append_assoc, ← List.cons_append]
    exact ih.snoc hok' hs'

/-- **Simulation.** If every step of `P` that meets the condition is matched from related states by a run of `Q` whose
events are those of the step as `f` sees them, then every run of such steps is matched by a run of `Q` with the trace
that `f` sees. -/
theorem RunIf.simulate {T' C' S' L' E' : Type} [DecidableEq T'] {Q : Prog T' C' S' L' E'} {u₀ : St T' S' L'}
    {R : St T S L → St T' S' L' → Prop} (f : E → Option E') {as : List (T × C)} {tr : List E}
    (h : RunIf P ok s₀ as tr s) (h0 : R s₀ u₀)
    (hstep : ∀ s u t c sh l es, R s u → ok s t c → P t c s.sh (s.loc t) = some (sh, l, es) →
      ∃ bs u', Run Q u bs (es.filterMap f) u' ∧ R (s.move t sh l) u') :
    ∃ bs u, Run Q u₀ bs (tr.filterMap f) u ∧ R s u := by
  induction h with
  | nil => exact ⟨[], u₀, .nil, h0⟩
  | snoc _ hok hs ih =>
    obtain ⟨bs, u, hu, hr⟩ := ih
    obtain ⟨bs', u', hu', hr'⟩ := hstep _ _ _ _ _ _ _ hr hok hs
    exact ⟨bs ++ bs', u', by rw [List.filterMap_append]; exact hu.append hu', hr'⟩

end RunIf

/-- as `RunIf.simulate`, for all steps -/
theorem Run.simulate {T' C' S' L' E' : Type} [DecidableEq T'] {Q : Prog T' C' S' L' E'} {u₀ : St T' S' L'}
    {R : St T S L → St T' S' L' → Prop} (f : E → Option E') {as : List (T × C)} {tr : List E} (h : Run P s₀ as tr s)
    (h0 : R s₀ u₀)
    (hstep : ∀ s u t c sh l es, R s u → P t c s.sh (s.loc t) = some (sh, l, es) →
      ∃ bs u', Run Q u bs (es.filterMap f) u' ∧ R (s.move t sh l) u') :
    ∃ bs u, Run Q u₀ bs (tr.filterMap f) u ∧ R s u :=
  h.runIf.simulate f h0 fun s u t c sh l es hr _ hs => hstep s u t c sh l es hr hs

/-! ## Threads that run alone -/

/-- the steps of one thread without interference -/
inductive Alone (P : Prog T C S L E) (t : T) : S → L → List E → S → L → Prop where
  | refl (x : S) (l : L) : Alone P t x l [] x l
  | head {c : C} {x x' x'' : S} {l l' l'' : L} {es tr : List E} (h : P t c x l = some (x', l', es))
      (hs : Alone P t x' l' tr x'' l'') : Alone P t x l (es ++ tr) x'' l''

omit [DecidableEq T] in
theorem Alone.trans {t : T} {x x' x'' : S} {l l' l'' : L} {tr tr' : List E} (h : Alone P t x l tr x' l')
    (h' : Alone P t x' l' tr' x'' l'') : Alone P t x l (tr ++ tr') x'' l'' := by
  induction h with
  | refl => exact h'
  | head h _ ih =>
    rw [List.append_assoc]
    exact .head h (ih h')

omit [DecidableEq T] in
/-- a step without events first -/
theorem Alone.silent {t : T} {c : C} {x x' x'' : S} {l l' l'' : L} {tr : List E} (h : P t c x l = some (x', l', []))
    (hs : Alone P t x' l' tr x'' l'') : Alone P t x l tr x'' l'' := .head h hs

omit [DecidableEq T] in
theorem Alone.single {t : T} {c : C} {x x' : S} {l l' : L} {es : List E} (h : P t c x l = some (x', l', es)) :
    Alone P t x l es x' l' := by
  simpa using Alone.head h (.refl x' l')

theorem Alone.run {t : T} {x : S} {l : L} {tr : List E} (h : Alone P t s.sh (s.loc t) tr x l) :
    ∃ as, Run P s as tr (s.move t x l) := by
  generalize hx : s.sh = y at h
  generalize hl : s.loc t = m at h
  induction h generalizing s with
  | refl =>
    refine ⟨[], ?_⟩
    rw [← hx, ← hl, St.move_eq_self]
    exact .nil
  | @head c y y' y'' m m' m'' es tr h _ ih =>
    obtain ⟨as, hr⟩ := ih (s := s.move t y' m') rfl (by simp)
    rw [← hx, ← hl] at h
    exact ⟨(t, c) :: as, by simpa [St.move] using hr.cons h⟩

/-- the threads of a list run alone one after another, `x j` being the shared state after `j` of them -/
theorem run_each (us : List T) (hn : us.Nodup) (x : ℕ → S) (pre post : T → L) (tr : T → List E)
    (h : ∀ j u, j < us.length → u ∈ us → Alone P u (x j) (pre u) (tr u) (x (j + 1)) (post u)) (hx : s.sh = x 0)
    (hl : ∀ u ∈ us, s.loc u = pre u) :
    ∃ as s', Run P s as (us.flatMap tr) s' ∧ s'.sh = x us.length ∧ (∀ u ∈ us, s'.loc u = post u) ∧
      ∀ u, u ∉ us → s'.loc u = s.loc u := by
  induction us generalizing s x with
  | nil => exact ⟨[], s, .nil, hx, by simp, by simp⟩
  | cons u us ih =>
    obtain ⟨hu, hn⟩ := List.nodup_cons.1 hn
    have h1 := h 0 u (Nat.succ_pos _) List.mem_cons_self
    rw [← hx, ← hl u List.mem_cons_self] at h1
    obtain ⟨as, hr⟩ := h1.run
    obtain ⟨bs, s', hr', hs', hin, hout⟩ := ih (s := s.move u (x 1) (post u)) hn (fun j => x (j + 1))
      (fun j v hj hv => h (j + 1) v (Nat.succ_lt_succ hj) (List.mem_cons_of_mem _ hv)) rfl fun v hv => by
        rw [St.move_loc, Function.update_of_ne (ne_of_mem_of_not_mem hv hu)]
        exact hl v (List.mem_cons_of_mem _ hv)
    refine ⟨as ++ bs, s', hr.append hr', hs', ?_, ?_⟩
    · intro v hv
      rcases List.mem_cons.1 hv with rfl | hv
      · rw [hout v hu]
        simp
      · exact hin v hv
    · intro v hv
      obtain ⟨hvu, hv⟩ := List.ne_and_not_mem_of_not_mem_cons hv
      rw [hout v hv, St.move_loc, Function.update_of_ne hvu]

/-! ## Evaluating a schedule -/

/-- take the scheduled steps one after another; `none` as soon as one is not enabled -/
def exec (P : Prog T C S L E) (s : St T S L) : List (T × C) → Option (St T S L × List E)
  | [] => some (s, [])
  | (t, c) :: as =>
    match P t c s.sh (s.loc t) with
    | none => none
    | some (sh, l, es) => (exec P (s.move t sh l) as).map fun r => (r.1, es ++ r.2)

theorem exec_run {as : List (T × C)} {tr : List E} (h : exec P s as = some (s', tr)) : Run P s as tr s' := by
  induction as generalizing s tr with
  | nil => cases h; exact .nil
  | cons a as ih =>
    obtain ⟨t, c⟩ := a
    simp only [exec] at h
    split at h
    · cases h
    · rename_i sh l es hs
      obtain ⟨⟨s'', tr'⟩, hr, he⟩ := Option.map_eq_some_iff.1 h
      cases he
      exact (ih hr).cons hs

theorem exec_append (P : Prog T C S L E) (s : St T S L) (as bs : List (T × C)) :
    exec P s (as ++ bs) = (exec P s as).bind fun r => (exec P r.1 bs).map fun r' => (r'.1, r.2 ++ r'.2) := by
  induction as generalizing s with
  | nil => simp [exec]
  | cons a as ih =>
    obtain ⟨t, c⟩ := a
    simp only [List.cons_append, exec]
    split
    · rfl
    · rw [ih]
      cases exec P _ as <;> simp [Function.comp_def]

theorem Run.exec {as : List (T × C)} {tr : List E} (h : Run P s₀ as tr s) : exec P s₀ as = some (s, tr) := by
  induction h with
  | nil => rfl
  | snoc _ hs ih => simp [exec_append, ih, Interleave.exec, hs]

/-- a schedule determines the run -/
theorem Run.unique {as : List (T × C)} {tr tr' : List E} (h : Run P s₀ as tr s) (h' : Run P s₀ as tr' s') :
    s = s' ∧ tr = tr' := by
  have he := h.exec.symm.trans h'.exec
  simpa using he

/-- as `exec`, `none` also as soon as a step does not meet the condition -/
def execIf (P : Prog T C S L E) (ok : St T S L → T → C → Prop) [∀ s t c, Decidable (ok s t c)] (s : St T S L) :
    List (T × C) → Option (St T S L × List E)
  | [] => some (s, [])
  | (t, c) :: as =>
    if ok s t c then
      match P t c s.sh (s.loc t) with
      | none => none
      | some (sh, l, es) => (execIf P ok (s.move t sh l) as).map fun r => (r.1, es ++ r.2)
    else none

theorem execIf_runIf {ok : St T S L → T → C → Prop} [∀ s t c, Decidable (ok s t c)] {as : List (T × C)} {tr : List E}
    (h : execIf P ok s as = some (s', tr)) : RunIf P ok s as tr s' := by
  induction as generalizing s tr with
  | nil => cases h; exact .nil
  | cons a as ih =>
    obtain ⟨t, c⟩ := a
    simp only [execIf] at h
    split_ifs at h with hok
    split at h
    · cases h
    · rename_i sh l es hs
      obtain ⟨⟨s'', tr'⟩, hr, he⟩ := Option.map_eq_some_iff.1 h
      cases he
      exact (ih hr).cons hok hs

/-- a schedule that evaluates to a state and a trace with a decidable property is a run with that property -/
theorem exec_any_run (P : Prog T C S L E) (s : St T S L) (as : List (T × C)) (p : St T S L → List E → Prop)
    [∀ s tr, Decidable (p s tr)] (h : (exec P s as).any fun r => decide (p r.1 r.2)) :
    ∃ s' tr, Run P s as tr s' ∧ p s' tr := by
  obtain ⟨⟨s', tr⟩, hr, hp⟩ := (Option.any_eq_true _ _).1 h
  exact ⟨s', tr, exec_run hr, of_decide_eq_true hp⟩

theorem execIf_any_runIf (P : Prog T C S L E) (ok : St T S L → T → C → Prop) [∀ s t c, Decidable (ok s t c)]
    (s : St T S L) (as : List (T × C)) (p : St T S L → List E → Prop) [∀ s tr, Decidable (p s tr)]
    (h : (execIf P ok s as).any fun r => decide (p r.1 r.2)) : ∃ s' tr, RunIf P ok s as tr s' ∧ p s' tr := by
  obtain ⟨⟨s', tr⟩, hr, hp⟩ := (Option.any_eq_true _ _).1 h
  exact ⟨s', tr, execIf_runIf hr, of_decide_eq_true hp⟩

end OsPractice.Interleave
