/-
Two threads that increase a variable without a lock (`POSIXthreads-sync/thread_incr.c`). Each loads `glob` and stores
one more, `loops` times.

Each load and each store of `glob` is one step, also the load for what is printed, which is left out. The program is
over any numbers with a zero and a one: with an `int` it is the one of the source, where an overflow wraps around, and
with natural numbers the one that is reasoned about; the former is the image of the latter.

A thread that stores for the second time or later has loaded a value that is not zero. So the last store is of two at
least, unless a thread has stored once only.

Results:
- `inv_step`: what a step keeps of the values;
- `ends_nat_iff`: the values in the end, without an overflow;
- `final_values`: the values of the `int`.
-/
import OsPractice.Core.Bytes
import OsPractice.Core.Interleave

namespace OsPractice.ThreadIncr

open Interleave

/-! ## The program -/

/-- where a thread is in `threadFunc` -/
inductive Pc (A : Type) where
  | test
  | print
  | load
  | store (loc : A)
  | finished
  deriving DecidableEq, Repr

structure Local (A : Type) where
  pc : Pc A
  j : ℕ
  deriving DecidableEq, Repr

/-- the threads that `main` creates -/
inductive Thread where
  | t1
  | t2
  deriving DecidableEq, Repr

instance : Fintype Thread := ⟨{.t1, .t2}, fun t => by cases t <;> decide⟩

section

variable (A : Type) [AddMonoidWithOne A]

/-- `threadFunc`; the shared state is `glob` -/
def threadFunc (T : Type) (loops : ℕ) : Prog T Unit A (Local A) Unit := fun _ _ glob l =>
  match l.pc with
  | .test => some (glob, { l with pc := if l.j < loops then .print else .finished }, [])
  | .print => some (glob, { l with pc := .load }, [])
  | .load => some (glob, { l with pc := .store glob }, [])
  | .store loc => some (loc + 1, { pc := .test, j := l.j + 1 }, [])
  | .finished => none

def start (T : Type) : St T A (Local A) := ⟨0, fun _ => ⟨.test, 0⟩⟩

/-- `glob` may have the value `v` when both threads have been joined -/
def Ends (loops : ℕ) (v : A) : Prop :=
  ∃ as tr s, Run (threadFunc A Thread loops) (start A Thread) as tr s ∧ (∀ t, (s.loc t).pc = .finished) ∧ s.sh = v

end

/-! ## The bounds -/

section

variable {T : Type} {loops : ℕ}

/-- what a thread that has stored `j` times knows; `n` is the number of all stores -/
structure At (loops n glob : ℕ) (l : Local ℕ) : Prop where
  le : l.j ≤ loops
  finished : l.pc = .finished → l.j = loops
  running : l.pc ≠ .test → l.pc ≠ .finished → l.j < loops
  stored : 0 < l.j → 0 < glob
  loaded : ∀ loc, l.pc = .store loc → loc ≤ n ∧ (0 < l.j → 0 < loc)

variable [Fintype T]

structure Inv (loops : ℕ) (s : St T ℕ (Local ℕ)) : Prop where
  upper : s.sh ≤ total Local.j s.loc
  threads : ∀ t, At loops (total Local.j s.loc) s.sh (s.loc t)
  low : s.sh ≤ 1 → ∃ t, (s.loc t).j ≤ 1

variable {s : St T ℕ (Local ℕ)} {t : T} {glob : ℕ} {l : Local ℕ} {es : List Unit}

theorem inv_start [Nonempty T] : Inv loops (start ℕ T) where
  upper := Nat.zero_le _
  threads _ := ⟨Nat.zero_le _, fun h => (by cases h), fun h => absurd rfl h, fun h => absurd h (lt_irrefl 0),
    fun _ h => (by cases h)⟩
  low _ := ⟨Classical.arbitrary T, zero_le_one⟩

variable [DecidableEq T]

/-- a step that does not store -/
theorem Inv.keep (h : Inv loops s) (hj : l.j = (s.loc t).j) (hat : At loops (total Local.j s.loc) s.sh l) :
    Inv loops (s.move t s.sh l) := by
  have htotal : total Local.j (s.move t s.sh l).loc = total Local.j s.loc := by
    have := total_update Local.j s.loc t l
    rw [St.move_loc]
    omega
  refine ⟨by rw [htotal]; exact h.upper, ?_, fun hlow => ?_⟩
  · rw [htotal]
    exact s.forall_move (p := fun _ l => At loops (total Local.j s.loc) s.sh l) _ hat fun u _ => h.threads u
  · obtain ⟨u, hu⟩ := h.low hlow
    by_cases hut : u = t
    · subst hut
      exact ⟨u, by rw [St.move_loc, Function.update_self, hj]; exact hu⟩
    · exact ⟨u, by rw [St.move_loc, Function.update_of_ne hut]; exact hu⟩

/-- the store of a loaded value -/
theorem Inv.store (h : Inv loops s) {loc : ℕ} (hl : (s.loc t).pc = .store loc) :
    Inv loops (s.move t (loc + 1) ⟨.test, (s.loc t).j + 1⟩) := by
  have hat := h.threads t
  obtain ⟨hloc, hpos⟩ := hat.loaded loc hl
  have hless : (s.loc t).j < loops := hat.running (by rw [hl]; simp) (by rw [hl]; simp)
  have htotal : total Local.j (s.move t (loc + 1) ⟨.test, (s.loc t).j + 1⟩).loc = total Local.j s.loc + 1 := by
    have := total_update Local.j s.loc t ⟨.test, (s.loc t).j + 1⟩
    rw [St.move_loc]
    dsimp only at this
    omega
  refine ⟨by rw [htotal, St.move_sh]; omega, ?_, fun hlow => ⟨t, ?_⟩⟩
  · rw [htotal]
    refine s.forall_move (p := fun _ l => At loops (total Local.j s.loc + 1) (loc + 1) l) _ ?_ fun u _ => ?_
    · exact ⟨hless, fun hpc => (by cases hpc), fun hpc => absurd rfl hpc, fun _ => Nat.succ_pos _,
        fun _ hpc => (by cases hpc)⟩
    · have hu := h.threads u
      exact ⟨hu.le, hu.finished, hu.running, fun _ => Nat.succ_pos _,
        fun v hv => ⟨(hu.loaded v hv).1.trans (Nat.le_succ _), (hu.loaded v hv).2⟩⟩
  · -- the value that was loaded was zero, and the thread had not stored before
    rw [St.move_loc, Function.update_self]
    by_contra hmany
    have := hpos (by simp at hmany; omega)
    rw [St.move_sh] at hlow
    omega

theorem inv_step (h : Inv loops s) (hs : threadFunc ℕ T loops t () s.sh (s.loc t) = some (glob, l, es)) :
    Inv loops (s.move t glob l) := by
  have hat := h.threads t
  have hglob := h.upper
  have hkeep := h.keep (t := t) (l := l)
  have hstore (loc : ℕ) (hpc : (s.loc t).pc = .store loc) := h.store hpc
  generalize s.loc t = l₀ at hs hat hkeep hstore
  obtain ⟨pc, j⟩ := l₀
  cases pc with
  | test =>
    cases hs
    refine hkeep rfl ⟨hat.le, fun hpc => ?_, fun _ hpc => ?_, hat.stored, fun v hv => ?_⟩
    · by_contra hne
      simp [lt_of_le_of_ne hat.le hne] at hpc
    · by_contra hge
      simp [hge] at hpc
    · split_ifs at hv
  | print =>
    cases hs
    have hless : j < loops := hat.running (by simp) (by simp)
    exact hkeep rfl ⟨hat.le, fun hpc => (by cases hpc), fun _ _ => hless, hat.stored, fun v hv => (by cases hv)⟩
  | load =>
    cases hs
    have hless : j < loops := hat.running (by simp) (by simp)
    refine hkeep rfl ⟨hat.le, fun hpc => (by cases hpc), fun _ _ => hless, hat.stored, fun v hv => ?_⟩
    cases hv
    exact ⟨hglob, hat.stored⟩
  | store loc =>
    cases hs
    exact hstore loc rfl
  | finished => cases hs

theorem run_inv [Nonempty T] {as : List (T × Unit)} {tr : List Unit}
    (h : Run (threadFunc ℕ T loops) (start ℕ T) as tr s) : Inv loops s :=
  h.inv inv_start fun _ _ _ _ _ _ hi hs => inv_step hi hs

end

/-- the bounds, for two threads that go round twice at least -/
theorem Ends.bounds {loops v : ℕ} (hloops : 2 ≤ loops) (h : Ends ℕ loops v) : 2 ≤ v ∧ v ≤ 2 * loops := by
  obtain ⟨as, tr, s, hrun, hend, rfl⟩ := h
  have : Nonempty Thread := ⟨.t1⟩
  have hi := run_inv hrun
  have hj : ∀ t, (s.loc t).j = loops := fun t => (hi.threads t).finished (hend t)
  constructor
  · by_contra hlow
    obtain ⟨t, ht⟩ := hi.low (by omega)
    rw [hj t] at ht
    omega
  · calc s.sh
      _ ≤ total Local.j s.loc := hi.upper
      _ = Fintype.card Thread * loops := by simp [total, hj]
      _ = 2 * loops := rfl

/-! ## The schedules -/

section

variable {loops : ℕ}

/-- a thread alone: up to the store -/
theorem load_alone {T : Type} (t : T) (glob : ℕ) {j : ℕ} (hj : j < loops) :
    Alone (threadFunc ℕ T loops) t glob ⟨.test, j⟩ [] glob ⟨.store glob, j⟩ := by
  have htest : threadFunc ℕ T loops t () glob ⟨.test, j⟩ = some (glob, ⟨.print, j⟩, []) := by simp [threadFunc, hj]
  have hprint : threadFunc ℕ T loops t () glob ⟨.print, j⟩ = some (glob, ⟨.load, j⟩, []) := rfl
  have hload : threadFunc ℕ T loops t () glob ⟨.load, j⟩ = some (glob, ⟨.store glob, j⟩, []) := rfl
  exact .silent htest (.silent hprint (.single hload))

theorem store_alone {T : Type} (t : T) (glob loc j : ℕ) :
    Alone (threadFunc ℕ T loops) t glob ⟨.store loc, j⟩ [] (loc + 1) ⟨.test, j + 1⟩ :=
  .single (c := ()) rfl

/-- a thread alone: `k` rounds -/
theorem rounds_alone {T : Type} (t : T) (glob : ℕ) {j k : ℕ} (hk : j + k ≤ loops) :
    Alone (threadFunc ℕ T loops) t glob ⟨.test, j⟩ [] (glob + k) ⟨.test, j + k⟩ := by
  induction k with
  | zero => exact .refl _ _
  | succ k ih =>
    have hless : j + k < loops := by omega
    have hround := (load_alone t (glob + k) hless).trans (store_alone t (glob + k) (glob + k) (j + k))
    exact (ih hless.le).trans hround

theorem finish_alone {T : Type} (t : T) (glob : ℕ) :
    Alone (threadFunc ℕ T loops) t glob ⟨.test, loops⟩ [] glob ⟨.finished, loops⟩ :=
  .single (c := ()) (by simp [threadFunc])

/-- a state that some run reaches -/
def Reach (loops glob : ℕ) (l1 l2 : Local ℕ) : Prop :=
  ∃ as tr s, Run (threadFunc ℕ Thread loops) (start ℕ Thread) as tr s ∧ s.sh = glob ∧ s.loc .t1 = l1 ∧ s.loc .t2 = l2

variable {glob glob' : ℕ} {l1 l2 l : Local ℕ}

theorem Reach.first (h : Reach loops glob l1 l2) (ha : Alone (threadFunc ℕ Thread loops) .t1 glob l1 [] glob' l) :
    Reach loops glob' l l2 := by
  obtain ⟨as, tr, s, hrun, rfl, rfl, rfl⟩ := h
  obtain ⟨bs, hrun'⟩ := ha.run
  have hself : (s.move .t1 glob' l).loc .t1 = l := by rw [St.move_loc, Function.update_self]
  have hother : (s.move .t1 glob' l).loc .t2 = s.loc .t2 := by rw [St.move_loc, Function.update_of_ne (by decide)]
  exact ⟨_, _, _, hrun.append hrun', rfl, hself, hother⟩

theorem Reach.second (h : Reach loops glob l1 l2) (ha : Alone (threadFunc ℕ Thread loops) .t2 glob l2 [] glob' l) :
    Reach loops glob' l1 l := by
  obtain ⟨as, tr, s, hrun, rfl, rfl, rfl⟩ := h
  obtain ⟨bs, hrun'⟩ := ha.run
  have hself : (s.move .t2 glob' l).loc .t2 = l := by rw [St.move_loc, Function.update_self]
  have hother : (s.move .t2 glob' l).loc .t1 = s.loc .t1 := by rw [St.move_loc, Function.update_of_ne (by decide)]
  exact ⟨_, _, _, hrun.append hrun', rfl, hother, hself⟩

/-- after `i` and `k` rounds of the threads one after the other, each thread overwrites the rest of the other's -/
theorem ends_of_rounds {i k : ℕ} (hi : i < loops) (hk : k < loops) : Ends ℕ loops (i + k + 2) := by
  have h0 : Reach loops 0 ⟨.test, 0⟩ ⟨.test, 0⟩ := ⟨[], [], _, .nil, rfl, rfl, rfl⟩
  have h1 : Reach loops i ⟨.test, i⟩ ⟨.test, 0⟩ := by
    have hle : 0 + i ≤ loops := by omega
    simpa using h0.first (rounds_alone Thread.t1 0 hle)
  have h2 : Reach loops (i + k) ⟨.test, i⟩ ⟨.test, k⟩ := by
    have hle : 0 + k ≤ loops := by omega
    simpa using h1.second (rounds_alone Thread.t2 i hle)
  have hlast1 : i + 1 + (loops - 1 - i) = loops := by omega
  have hlast2 : k + (loops - 1 - k) + 1 = loops := by omega
  -- the first thread loads, the second goes on to its last round, and the first stores
  have h3 := h2.first (load_alone Thread.t1 (i + k) hi)
  have h4 := h3.second (rounds_alone Thread.t2 (i + k) (k := loops - 1 - k) (by omega))
  have h5 := h4.first (store_alone Thread.t1 (i + k + (loops - 1 - k)) (i + k) i)
  -- the second thread loads, the first goes on to its end, and the second stores
  have h6 := h5.second (load_alone Thread.t2 (i + k + 1) (by omega))
  have h7 := h6.first (rounds_alone Thread.t1 (i + k + 1) (k := loops - 1 - i) (by omega))
  have h8 := h7.second (store_alone Thread.t2 (i + k + 1 + (loops - 1 - i)) (i + k + 1) (k + (loops - 1 - k)))
  rw [hlast1, hlast2] at h8
  have h9 := h8.first (finish_alone Thread.t1 (i + k + 2))
  obtain ⟨as, tr, s, hrun, hglob, hl1, hl2⟩ := h9.second (finish_alone Thread.t2 (i + k + 2))
  refine ⟨as, tr, s, hrun, fun t => ?_, hglob⟩
  cases t with
  | t1 => rw [hl1]
  | t2 => rw [hl2]

/-- the values in the end, without an overflow -/
theorem ends_nat_iff (hloops : 2 ≤ loops) (v : ℕ) : Ends ℕ loops v ↔ 2 ≤ v ∧ v ≤ 2 * loops := by
  refine ⟨Ends.bounds hloops, fun ⟨h2, hle⟩ => ?_⟩
  obtain ⟨i, k, hi, hk, rfl⟩ : ∃ i k, i < loops ∧ k < loops ∧ v = i + k + 2 :=
    ⟨min (v - 2) (loops - 1), v - 2 - min (v - 2) (loops - 1), by omega, by omega, by omega⟩
  exact ends_of_rounds hi hk

end

/-! ## The `int` -/

section

variable (A : Type) [AddMonoidWithOne A]

def castPc : Pc ℕ → Pc A
  | .test => .test
  | .print => .print
  | .load => .load
  | .store loc => .store loc
  | .finished => .finished

def castLocal (l : Local ℕ) : Local A := ⟨castPc A l.pc, l.j⟩

end

/-- the program over `A` is the image of the one over the natural numbers -/
theorem threadFunc_image (A T : Type) [AddMonoidWithOne A] (loops : ℕ) :
    IsImage (threadFunc ℕ T loops) (threadFunc A T loops) (fun glob : ℕ => (glob : A)) (castLocal A) := by
  intro t c glob l
  obtain ⟨pc, j⟩ := l
  cases pc with
  | test =>
    by_cases hj : j < loops <;> simp [threadFunc, castLocal, castPc, hj]
  | store loc => simp [threadFunc, castLocal, castPc]
  | _ => rfl

theorem start_cast (A T : Type) [AddMonoidWithOne A] :
    (start ℕ T).map (fun glob : ℕ => (glob : A)) (castLocal A) = start A T :=
  congrArg (fun zero : A => (⟨zero, fun _ => ⟨.test, 0⟩⟩ : St T A (Local A))) Nat.cast_zero

theorem castLocal_finished {A : Type} [AddMonoidWithOne A] (l : Local ℕ) :
    (castLocal A l).pc = .finished ↔ l.pc = .finished := by
  obtain ⟨pc, j⟩ := l
  cases pc <;> simp [castLocal, castPc]

/-- what may be in `glob` in the end, over any numbers -/
theorem ends_cast_iff (A : Type) [AddMonoidWithOne A] (loops : ℕ) (v : A) :
    Ends A loops v ↔ ∃ n : ℕ, Ends ℕ loops n ∧ v = n := by
  constructor
  · rintro ⟨as, tr, u, hrun, hend, rfl⟩
    rw [← start_cast A] at hrun
    obtain ⟨s, hrun', rfl⟩ := hrun.lift (threadFunc_image A Thread loops)
    exact ⟨s.sh, ⟨as, tr, s, hrun', fun t => (castLocal_finished (s.loc t)).1 (hend t), rfl⟩, rfl⟩
  · rintro ⟨n, ⟨as, tr, s, hrun, hend, rfl⟩, rfl⟩
    have hrun' := hrun.map (threadFunc_image A Thread loops)
    rw [start_cast A] at hrun'
    exact ⟨as, tr, _, hrun', fun t => (castLocal_finished (s.loc t)).2 (hend t), rfl⟩

/-- the `int` may have the value `v` in the end -/
def EndsInt (loops : ℕ) (v : ℤ) : Prop := ∃ w : BitVec 32, Ends (BitVec 32) loops w ∧ w.toInt = v

/-- **The values.** For any number of rounds that is two at least, and twice of which an `int` can hold: the values that
`glob` may have when both threads have ended are those from two to twice the number of rounds. -/
theorem final_values {loops : ℕ} (h2 : 2 ≤ loops) (hmax : loops < 2 ^ 30) (v : ℤ) :
    EndsInt loops v ↔ 2 ≤ v ∧ v ≤ 2 * loops := by
  have hint : ∀ n : ℕ, n ≤ 2 * loops → (n : BitVec 32).toInt = n := by
    intro n hn
    rw [BitVec.natCast_eq_ofNat, Bytes.toInt_ofNat (by omega)]
  constructor
  · rintro ⟨w, hw, rfl⟩
    obtain ⟨n, hn, rfl⟩ := (ends_cast_iff (BitVec 32) loops w).1 hw
    obtain ⟨hlow, hup⟩ := (ends_nat_iff h2 n).1 hn
    rw [hint n hup]
    omega
  · rintro ⟨hlow, hup⟩
    lift v to ℕ using (by omega)
    have hends : Ends ℕ loops v := (ends_nat_iff h2 v).2 ⟨by omega, by omega⟩
    exact ⟨v, (ends_cast_iff (BitVec 32) loops v).2 ⟨v, hends, rfl⟩, hint v (by omega)⟩

/-- with two rounds, two increments may be lost, and not three -/
theorem final_values_two : EndsInt 2 2 ∧ ¬ EndsInt 2 1 :=
  ⟨(final_values le_rfl (by decide) 2).2 (by decide),
    fun h => absurd ((final_values le_rfl (by decide) 1).1 h) (by decide)⟩

/-- an `int` cannot hold twice `2 ^ 30` -/
theorem not_final_values :
    ¬ ∀ loops : ℕ, 2 ≤ loops → loops < 2 ^ 31 → ∀ v : ℤ, EndsInt loops v ↔ 2 ≤ v ∧ v ≤ 2 * loops := by
  intro h
  obtain ⟨w, -, hw⟩ := (h (2 ^ 30) (by norm_num) (by norm_num) (2 ^ 31)).2 (by norm_num)
  have hlt := w.toInt_lt
  omega

end OsPractice.ThreadIncr
