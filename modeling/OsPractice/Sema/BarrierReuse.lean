/-
Reusing the barrier (`sema/barrier.c`). The token that the first round leaves in `sem` lets one call of the next round
return although that round is not complete.

Results:
- `returned_le`: where the number of returned calls stays within the complete rounds;
- `leak`: the run in which it does not, for any number of threads that suffices;
- `reusable_iff`: the two together. No call returns before its round is complete exactly when the barrier has threshold
  1, or fewer threads than the threshold call it, or the calls do not go beyond one round.
-/
import OsPractice.Sema.Barrier

namespace OsPractice.BarrierReuse

open Interleave Semaphore Barrier

variable {T : Type} [Fintype T] [DecidableEq T]

/-- the threads that make a call -/
def callers (calls : T → ℕ) : Finset T := Finset.univ.filter fun t => 0 < calls t

/-! ## Within one round -/

omit [Fintype T] [DecidableEq T] in
/-- a step does not both arrive and return -/
theorem step_counts {t : T} {c : Unit} {b b' : BarrierT} {l l' : Local} {es : List (Event T)}
    (h : prog t c b l = some (b', l', es)) : arrived es = 0 ∨ arrived es = 1 ∧ returned es = 0 := by
  obtain ⟨k, pc⟩ := l
  cases pc with
  | none =>
    simp only [prog] at h
    split_ifs at h
    cases h
    exact .inl rfl
  | some p =>
    obtain ⟨⟨b', q⟩, hb, he⟩ := Option.map_eq_some_iff.1 h
    cases he
    cases p with
    | storeWaiters tmp => exact .inr ⟨rfl, rfl⟩
    | testThreshold =>
      cases hb
      split_ifs <;> exact .inl rfl
    | _ => cases q <;> exact .inl rfl

omit [DecidableEq T] in
theorem inFlight_le {N : ℕ} {calls : T → ℕ} {tr : List (Event T)} {s : St T BarrierT Local} (h : Inv N calls tr s) :
    total inFlight s.loc ≤ (callers calls).card := by
  rw [callers, Finset.card_filter]
  refine Finset.sum_le_sum ?_
  intro t _
  have hc := h.caller t
  generalize s.loc t = l at hc ⊢
  obtain ⟨k, pc⟩ := l
  cases pc with
  | none => exact Nat.zero_le _
  | some p =>
    rw [if_pos (Nat.lt_of_lt_of_le (Nat.succ_pos k) hc)]
    cases p <;> first | exact le_rfl | exact Nat.zero_le _

/-- too few threads to complete a round -/
theorem arrived_lt {N : ℕ} (hN : 0 < N) {calls : T → ℕ} (hc : (callers calls).card < N) {as : List (T × Unit)}
    {tr : List (Event T)} {s : St T BarrierT Local} (h : Run prog (start N calls) as tr s) : arrived tr < N := by
  induction h with
  | nil => exact hN
  | @snoc as tr s h t c b l es hs ih =>
    obtain ⟨-, -, -, h0, -⟩ := (run_inv hN h).before ih
    have hi := run_inv hN (h.snoc hs)
    have hf := hi.flight
    have hle := inFlight_le hi
    simp only [arrived_append, returned_append] at hf ⊢
    rcases step_counts hs with h1 | ⟨-, h1⟩
    · omega
    · -- nobody has returned, so whoever has arrived is in flight
      omega

theorem returned_le {N : ℕ} (hN : 0 < N) {calls : T → ℕ}
    (hc : N = 1 ∨ (callers calls).card < N ∨ ∑ t, calls t ≤ N) {as : List (T × Unit)} {tr : List (Event T)}
    {s : St T BarrierT Local} (h : Run prog (start N calls) as tr s) : returned tr ≤ N * (arrived tr / N) := by
  have hi := run_inv hN h
  have hf := hi.flight
  have hp := hi.pending
  have hsmall : arrived tr < N → returned tr ≤ N * (arrived tr / N) := fun hlt => by
    obtain ⟨-, -, -, h0, -⟩ := hi.before hlt
    omega
  rcases hc with rfl | hc | hc
  · rw [Nat.div_one, Nat.one_mul]
    omega
  · exact hsmall (arrived_lt hN hc h)
  · by_cases hlt : arrived tr < N
    · exact hsmall hlt
    · have heq : arrived tr = N := by omega
      rw [heq, Nat.div_self hN, Nat.mul_one]
      omega

/-! ## The run that leaks -/

omit [Fintype T] [DecidableEq T] in
/-- a caller that is not the last one goes to wait -/
theorem alone_arrive (t : T) (sem k : ℕ) {N w : ℕ} (hw : w + 1 ≠ N) :
    Alone prog t ⟨sem, 1, N, w⟩ ⟨k + 1, none⟩ [.arrived t] ⟨sem, 1, N, w + 1⟩ ⟨k, some .waitSem⟩ := by
  have htest : prog t () ⟨sem, 0, N, w + 1⟩ ⟨k, some .testThreshold⟩ =
      some (⟨sem, 0, N, w + 1⟩, ⟨k, some .postLock⟩, []) := by
    simp [prog, barrier, shows, hw]
  have h1 : Alone prog t ⟨sem, 1, N, w⟩ ⟨k + 1, none⟩ [] ⟨sem, 0, N, w⟩ ⟨k, some (.storeWaiters w)⟩ :=
    .silent (c := ()) rfl (.silent (c := ()) rfl (.silent (c := ()) rfl (.single (c := ()) rfl)))
  have h2 : Alone prog t ⟨sem, 0, N, w⟩ ⟨k, some (.storeWaiters w)⟩ [.arrived t] ⟨sem, 0, N, w + 1⟩
      ⟨k, some .testThreshold⟩ := .single (c := ()) rfl
  have h3 : Alone prog t ⟨sem, 0, N, w + 1⟩ ⟨k, some .testThreshold⟩ [] ⟨sem, 1, N, w + 1⟩ ⟨k, some .waitSem⟩ :=
    .silent htest (.single (c := ()) rfl)
  exact h1.trans (h2.trans h3)

omit [Fintype T] [DecidableEq T] in
theorem alone_wait (t : T) (N sem w k : ℕ) :
    Alone prog t ⟨sem + 1, 1, N, w⟩ ⟨k, some .waitSem⟩ [.returned t] ⟨sem, 1, N, w⟩ ⟨k, none⟩ := by
  refine .single (c := ()) ?_
  simp [prog, barrier, semWait, shows]

omit [Fintype T] [DecidableEq T] in
/-- the loop of posts, from `i` on -/
theorem alone_posts (t : T) {N w k : ℕ} (j i sem : ℕ) (hij : i + j = N) :
    Alone prog t ⟨sem, 0, N, w⟩ ⟨k, some (.forTest i)⟩ [.returned t] ⟨sem + j, 1, N, 0⟩ ⟨k, none⟩ := by
  induction j generalizing i sem with
  | zero =>
    have hfor : prog t () ⟨sem, 0, N, w⟩ ⟨k, some (.forTest i)⟩ =
        some (⟨sem, 0, N, w⟩, ⟨k, some .resetWaiters⟩, []) := by
      have : ¬ i < N := by omega
      simp [prog, barrier, shows, this]
    exact .silent hfor (.silent (c := ()) rfl (.single (c := ()) rfl))
  | succ j ih =>
    have hfor : prog t () ⟨sem, 0, N, w⟩ ⟨k, some (.forTest i)⟩ =
        some (⟨sem, 0, N, w⟩, ⟨k, some (.postSem i)⟩, []) := by
      have : i < N := by omega
      simp [prog, barrier, shows, this]
    have hrest := ih (i + 1) (sem + 1) (by omega)
    rw [show sem + 1 + j = sem + (j + 1) by omega] at hrest
    exact .silent hfor (.silent (c := ()) rfl hrest)

omit [Fintype T] [DecidableEq T] in
/-- the last caller posts a token for each caller and returns -/
theorem alone_post (t : T) (sem k : ℕ) {N w : ℕ} (hw : w + 1 = N) :
    Alone prog t ⟨sem, 1, N, w⟩ ⟨k + 1, none⟩ [.arrived t, .posting t, .returned t] ⟨sem + N, 1, N, 0⟩ ⟨k, none⟩ := by
  have htest : prog t () ⟨sem, 0, N, w + 1⟩ ⟨k, some .testThreshold⟩ =
      some (⟨sem, 0, N, w + 1⟩, ⟨k, some (.forTest 0)⟩, [.posting t]) := by
    simp [prog, barrier, shows, hw]
  have h1 : Alone prog t ⟨sem, 1, N, w⟩ ⟨k + 1, none⟩ [] ⟨sem, 0, N, w⟩ ⟨k, some (.storeWaiters w)⟩ :=
    .silent (c := ()) rfl (.silent (c := ()) rfl (.silent (c := ()) rfl (.single (c := ()) rfl)))
  have h2 : Alone prog t ⟨sem, 0, N, w⟩ ⟨k, some (.storeWaiters w)⟩ [.arrived t] ⟨sem, 0, N, w + 1⟩
      ⟨k, some .testThreshold⟩ := .single (c := ()) rfl
  exact h1.trans (h2.trans ((Alone.single htest).trans (alone_posts t N 0 sem (Nat.zero_add N))))

/-- some thread has a call left after one round of `ts` -/
theorem exists_left {N : ℕ} {calls : T → ℕ} {ts : Finset T} (hcard : ts.card = N) (hsum : N < ∑ t, calls t) :
    ∃ v, 0 < calls v - if v ∈ ts then 1 else 0 := by
  by_contra hno
  push Not at hno
  have hle : ∑ t, calls t ≤ ∑ t, if t ∈ ts then 1 else 0 := Finset.sum_le_sum fun t _ => by
    have := hno t
    omega
  rw [Finset.sum_ite_mem, Finset.univ_inter, Finset.sum_const, smul_eq_mul, Nat.mul_one] at hle
  omega

omit [Fintype T] [DecidableEq T] in
theorem counts_flatMap (us : List T) :
    arrived (us.flatMap fun u => [.arrived u]) = us.length ∧ returned (us.flatMap fun u => [.arrived u]) = 0 ∧
    arrived (us.flatMap fun u => [.returned u]) = 0 ∧ returned (us.flatMap fun u => [.returned u]) = us.length := by
  induction us with
  | nil => exact ⟨rfl, rfl, rfl, rfl⟩
  | cons u us ih =>
    obtain ⟨h1, h2, h3, h4⟩ := ih
    simp only [List.flatMap_cons, arrived_append, returned_append, counts_arrived, counts_returned, List.length_cons]
    omega

omit [Fintype T] in
/-- one whole round of the callers `w :: us`: a token stays behind -/
theorem round (w : T) (us : List T) (hn : (w :: us).Nodup) {N : ℕ} (hN : us.length + 1 = N) {calls : T → ℕ}
    (hpos : ∀ t ∈ w :: us, 0 < calls t) :
    ∃ as tr s, Run prog (start N calls) as tr s ∧ arrived tr = N ∧ returned tr = N ∧ s.sh = ⟨1, 1, N, 0⟩ ∧
      (∀ t ∈ w :: us, s.loc t = ⟨calls t - 1, none⟩) ∧ ∀ t, t ∉ w :: us → s.loc t = ⟨calls t, none⟩ := by
  obtain ⟨hw, hn'⟩ := List.nodup_cons.1 hn
  have hpred : ∀ t ∈ w :: us, (start N calls).loc t = ⟨calls t - 1 + 1, none⟩ := fun t ht => by
    rw [Nat.sub_add_cancel (hpos t ht)]
    rfl
  -- all but `w` arrive and go to wait
  obtain ⟨as1, s1, h1, hs1, hin1, hout1⟩ := run_each us hn' (fun j => (⟨0, 1, N, j⟩ : BarrierT))
    (fun t => (⟨calls t - 1 + 1, none⟩ : Local)) (fun t => ⟨calls t - 1, some .waitSem⟩) (fun t => [Event.arrived t])
    (fun j t hj _ => alone_arrive t 0 _ (by omega)) (s := start N calls) rfl
    fun t ht => hpred t (List.mem_cons_of_mem _ ht)
  -- `w` posts and returns
  have h2 := alone_post w 0 (calls w - 1) hN
  rw [← hs1, ← hpred w List.mem_cons_self, ← hout1 w hw] at h2
  obtain ⟨as2, h2⟩ := h2.run
  -- the others take their tokens
  obtain ⟨as3, s3, h3, hs3, hin3, hout3⟩ := run_each us hn' (fun j => (⟨N - j, 1, N, 0⟩ : BarrierT))
    (fun t => (⟨calls t - 1, some .waitSem⟩ : Local)) (fun t => ⟨calls t - 1, none⟩) (fun t => [Event.returned t])
    (fun j t hj _ => by
      have h4 := alone_wait t N (N - (j + 1)) 0 (calls t - 1)
      rw [show N - (j + 1) + 1 = N - j by omega] at h4
      exact h4)
    (s := s1.move w ⟨0 + N, 1, N, 0⟩ ⟨calls w - 1, none⟩) (by simp) fun t ht => by
      rw [St.move_loc, Function.update_of_ne (ne_of_mem_of_not_mem ht hw)]
      exact hin1 t ht
  obtain ⟨c1, c2, -, -⟩ := counts_flatMap us
  obtain ⟨-, -, c3, c4⟩ := counts_flatMap us
  refine ⟨_, _, s3, (h1.append h2).append h3, ?_, ?_, ?_, ?_, ?_⟩
  · simp only [arrived_append, c1, c3]
    rw [← hN]
    rfl
  · simp only [returned_append, c2, c4]
    rw [← hN, Nat.zero_add, Nat.add_comm]
    rfl
  · rw [hs3, show N - us.length = 1 by omega]
  · intro t ht
    rcases List.mem_cons.1 ht with rfl | ht
    · rw [hout3 t hw]
      simp
    · exact hin3 t ht
  · intro t ht
    obtain ⟨ht1, ht2⟩ := List.ne_and_not_mem_of_not_mem_cons ht
    rw [hout3 t ht2, St.move_loc, Function.update_of_ne ht1, hout1 t ht2]
    rfl

/-- **The leak.** With a threshold of at least 2, as many callers, and a call beyond the first round, there is a run in
which one call more has returned than the complete rounds account for. -/
theorem leak {N : ℕ} (hN : 1 < N) {calls : T → ℕ} (hc : N ≤ (callers calls).card) (hsum : N < ∑ t, calls t) :
    ∃ as tr s, Run prog (start N calls) as tr s ∧ arrived tr = N + 1 ∧ returned tr = N + 1 := by
  obtain ⟨ts, hts, hcard⟩ := Finset.exists_subset_card_eq hc
  obtain ⟨w, us, hlist⟩ := List.exists_cons_of_length_pos (l := ts.toList) (by rw [Finset.length_toList]; omega)
  have hlen : us.length + 1 = N := by rw [← hcard, ← Finset.length_toList, hlist]; rfl
  have hmem : ∀ t, t ∈ w :: us ↔ t ∈ ts := fun t => by rw [← hlist, Finset.mem_toList]
  obtain ⟨as, tr, s, h, ha, hr, hsh, hin, hout⟩ := round w us (by rw [← hlist]; exact ts.nodup_toList) hlen
    fun t ht => (Finset.mem_filter.1 (hts ((hmem t).1 ht))).2
  obtain ⟨v, hv⟩ := exists_left hcard hsum
  have hloc : s.loc v = ⟨calls v - (if v ∈ ts then 1 else 0) - 1 + 1, none⟩ := by
    rw [Nat.sub_add_cancel hv]
    by_cases hvt : v ∈ ts
    · rw [if_pos hvt]
      exact hin v ((hmem v).2 hvt)
    · rw [if_neg hvt]
      exact hout v fun h' => hvt ((hmem v).1 h')
  -- a call of the second round takes the token that is left
  have h1 := (alone_arrive v 1 (calls v - (if v ∈ ts then 1 else 0) - 1) (show 0 + 1 ≠ N by omega)).trans
    (alone_wait v N 0 (0 + 1) _)
  rw [← hsh, ← hloc] at h1
  obtain ⟨bs, h1⟩ := h1.run
  refine ⟨_, _, _, h.append h1, ?_, ?_⟩
  · simp only [arrived_append, ha]
    rfl
  · simp only [returned_append, hr]
    rfl

/-- **When the barrier is reusable.** No call returns before its round is complete, in any run, exactly when the
threshold is 1, or fewer threads than the threshold make calls, or no call goes beyond the first round. -/
theorem reusable_iff {N : ℕ} (hN : 0 < N) (calls : T → ℕ) :
    (∀ as tr s, Run prog (start N calls) as tr s → returned tr ≤ N * (arrived tr / N)) ↔
      N = 1 ∨ (callers calls).card < N ∨ ∑ t, calls t ≤ N := by
  refine ⟨?_, fun hc as tr s h => returned_le hN hc h⟩
  intro h
  by_contra hno
  push Not at hno
  obtain ⟨hN1, hc, hsum⟩ := hno
  obtain ⟨as, tr, s, hrun, ha, hr⟩ := leak (by omega) hc hsum
  have hle := h as tr s hrun
  have hdiv : (N + 1) / N = 1 := by
    rw [Nat.add_div_left 1 hN, Nat.div_eq_of_lt (by omega)]
  rw [ha, hr, hdiv] at hle
  omega

/-- threshold 2, one thread that calls twice and one that calls once -/
theorem reusable_iff_two :
    ¬ ∀ as tr s, Run prog (start 2 fun t : Fin 2 => if t = 0 then 2 else 1) as tr s →
      returned tr ≤ 2 * (arrived tr / 2) := by
  rw [reusable_iff (by decide)]
  decide

/-- the same input: the second call of the first thread returns on the token left by the first round -/
theorem early_return_two :
    ∃ as tr s, Run prog (start 2 fun t : Fin 2 => if t = 0 then 2 else 1) as tr s ∧
      ¬ returned tr ≤ 2 * (arrived tr / 2) := by
  obtain ⟨s, tr, h, hr⟩ := exec_any_run prog (start 2 fun t : Fin 2 => if t = 0 then 2 else 1)
    ((List.replicate 7 (0 : Fin 2) ++ List.replicate 13 1 ++ List.replicate 9 0).map fun t => (t, ()))
    (fun _ tr => ¬ returned tr ≤ 2 * (arrived tr / 2)) (by decide +kernel)
  exact ⟨_, tr, s, h, hr⟩

end OsPractice.BarrierReuse
