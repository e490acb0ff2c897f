/-
The approximate counter (`concurrency/approximate_counter.c`) when every update adds one. A local count then is at the
threshold exactly when it is transferred, so the global count is made of transfers of the threshold. How many of them a
slot has made depends on the number of its updates only.

Between the transfer of a local count and its reset the count is counted twice, and an update that has not stored its
local count yet is not counted: `owed` is what a thread's update owes to its slot.

Results:
- `UnitInv.step`: what a step adds to the transfers, to the local counts and to what is owed;
- `unit_updates`: the global count, and what `get` returns, while no update is running.
-/
import OsPractice.Concurrency.ApproximateCounter

namespace OsPractice.ApproximateCounter

open Interleave Monitor

variable {T : Type} [DecidableEq T]

/-! ## Updates of a slot -/

/-- the event is the beginning of an update of slot `i` -/
def Event.isUpdateOf (i : Fin NUMCPUS) : Event T → Bool
  | .begun _ threadID _ => threadID % NUMCPUS = i
  | _ => false

/-- the number of updates of slot `i` that have begun -/
def updatesAt (i : Fin NUMCPUS) (tr : List (Event T)) : ℕ := tr.countP (Event.isUpdateOf i)

def Op.isUpdateOf (i : Fin NUMCPUS) : Op → Bool
  | .update threadID _ => threadID % NUMCPUS = i
  | .get => false

/-- the number of updates of slot `i` among the calls of a list -/
def callsAt (i : Fin NUMCPUS) (todo : List Op) : ℕ := todo.countP (Op.isUpdateOf i)

/-- all updates add one, and their threads have ids that are not negative -/
def Ones (todo : List Op) : Prop := ∀ threadID amt, Op.update threadID amt ∈ todo → 0 ≤ threadID ∧ amt = 1

omit [DecidableEq T] in
@[simp] theorem updatesAt_append (i : Fin NUMCPUS) (tr es : List (Event T)) :
    updatesAt i (tr ++ es) = updatesAt i tr + updatesAt i es := List.countP_append

omit [DecidableEq T] in
theorem updatesAt_updateShows (i : Fin NUMCPUS) (t : T) (amt : ℤ) (p : UpdatePc) :
    updatesAt i (updateShows t amt p) = 0 := by
  cases p <;> rfl

omit [DecidableEq T] in
theorem updatesAt_getShows (i : Fin NUMCPUS) (t : T) (p : GetPc) : updatesAt i (getShows t p) = 0 := by
  cases p <;> rfl

/-- the slot of an id that is not negative -/
theorem cpuOf_eq {threadID : ℤ} {cpu : Fin NUMCPUS} (h0 : 0 ≤ threadID) (h : cpuOf threadID = some cpu)
    (i : Fin NUMCPUS) : threadID % NUMCPUS = i ↔ cpu = i := by
  have hmod := Int.tmod_eq_emod_of_nonneg h0 (b := (NUMCPUS : ℤ))
  unfold cpuOf at h
  split_ifs at h with hc
  cases h
  rw [Fin.ext_iff]
  change threadID % NUMCPUS = i ↔ (threadID.tmod NUMCPUS).toNat = i
  rw [hmod] at hc ⊢
  omega

/-- what an update owes to the count of slot `i`: one, until it has stored its local count; and less the threshold, from
the transfer of the local count to the reset -/
def owed (threshold : ℤ) (i : Fin NUMCPUS) (l : Loc) : ℤ :=
  match l.running with
  | some (.update cpu _ p) =>
    if cpu = i then
      match p with
      | .lockLocal | .loadLocal | .storeLocal _ => 1
      | .unlockGlobal | .resetLocal => - threshold
      | _ => 0
    else 0
  | _ => 0

/-- at the points of the transfer, the local count is at the threshold -/
def Full (m : CounterT T) (l : Loc) : Prop :=
  match l.running with
  | some (.update cpu _ p) =>
    match p with
    | .lockGlobal | .loadGlobal | .loadAmount _ | .storeGlobal _ | .unlockGlobal | .resetLocal =>
      m.locals cpu = m.threshold
    | _ => True
  | _ => True

variable [Fintype T] {threshold C S : ℤ} {s : St T (CounterT T) Loc} {t : T} {m : CounterT T} {l : Loc}
  {es : List (Event T)}

omit [DecidableEq T] [Fintype T] in
/-- the local count of a slot is only changed with the mutex of the slot -/
theorem locals_step (hs : prog t () s.sh (s.loc t) = some (m, l, es)) :
    m.threshold = s.sh.threshold ∧ ∀ i, m.locals i = s.sh.locals i ∨ inLocal i (s.loc t) := by
  rcases prog_step hs with ⟨threadID, amt, cpu, todo, hl, rfl, rfl, rfl⟩ | ⟨todo, hl, rfl, rfl, rfl⟩ |
    ⟨cpu, amt, p, r, todo, hl, hu, rfl, rfl⟩ | ⟨p, r, todo, hl, hu, rfl, rfl⟩
  · exact ⟨rfl, fun _ => .inl rfl⟩
  · exact ⟨rfl, fun _ => .inl rfl⟩
  · rw [hl]
    rcases p with _ | _ | v | _ | _ | _ | g | v | _ | _ | _
    case lockLocal | lockGlobal =>
      obtain ⟨-, hz⟩ := lock_step hu
      cases hz
      exact ⟨rfl, fun _ => .inl rfl⟩
    case storeLocal | resetLocal =>
      cases hu
      refine ⟨rfl, fun i => ?_⟩
      by_cases hi : i = cpu
      · exact .inr ⟨hi.symm, by simp⟩
      · exact .inl (Function.update_of_ne hi _ _)
    case test =>
      simp only [ApproximateCounter.update] at hu
      split_ifs at hu <;> cases hu <;> exact ⟨rfl, fun _ => .inl rfl⟩
    all_goals
      cases hu
      exact ⟨rfl, fun _ => .inl rfl⟩
  · rcases p with _ | _ | _
    case lock =>
      obtain ⟨-, hz⟩ := lock_step hu
      cases hz
      exact ⟨rfl, fun _ => .inl rfl⟩
    all_goals
      cases hu
      exact ⟨rfl, fun _ => .inl rfl⟩

/-- `q i` is the number of transfers of slot `i`, and `n i` the number of its updates -/
structure UnitInv (threshold : ℤ) (n : Fin NUMCPUS → ℕ) (q : Fin NUMCPUS → ℤ) (s : St T (CounterT T) Loc) : Prop where
  inv : ∃ C S, Inv threshold C S s
  ones : ∀ t, Ones (s.loc t).todo ∧ ∀ cpu amt p, (s.loc t).running = some (.update cpu amt p) → amt = 1
  full : ∀ t, Full s.sh (s.loc t)
  global : s.sh.global = ∑ i, threshold * q i
  slot : ∀ i, (n i : ℤ) = threshold * q i + s.sh.locals i + ∑ t, owed threshold i (s.loc t)

variable {n : Fin NUMCPUS → ℕ} {q : Fin NUMCPUS → ℤ}

omit [DecidableEq T] in
/-- the begin of an update -/
theorem UnitInv.begun_step (h : UnitInv threshold n q s) {threadID amt : ℤ} {todo : List Op}
    (hl : s.loc t = ⟨none, .update threadID amt :: todo⟩) (hs : prog t () s.sh (s.loc t) = some (m, l, es)) :
    m = s.sh ∧ (∃ cpu, l = ⟨some (.update cpu 1 .lockLocal), todo⟩) ∧
      ∀ i, (updatesAt i es : ℤ) = owed threshold i l - owed threshold i (s.loc t) := by
  obtain ⟨h0, rfl⟩ := (h.ones t).1 threadID amt (by rw [hl]; exact List.mem_cons_self)
  rw [hl] at hs ⊢
  obtain ⟨cpu, hcpu, he⟩ := Option.map_eq_some_iff.1 hs
  cases he
  refine ⟨rfl, ⟨cpu, rfl⟩, fun i => ?_⟩
  have hiff := cpuOf_eq h0 hcpu i
  by_cases hi : cpu = i
  · simp [updatesAt, Event.isUpdateOf, owed, hiff, hi]
  · simp [updatesAt, Event.isUpdateOf, owed, hiff, hi]

omit [DecidableEq T] in
/-- what a step of an update adds: transfers, to the local counts, and to what it owes; and the local count is at the
threshold where it says so -/
theorem UnitInv.update_step (h : UnitInv threshold n q s) {cpu : Fin NUMCPUS} {p : UpdatePc} {todo : List Op}
    (hl : s.loc t = ⟨some (.update cpu 1 p), todo⟩) {r : Option UpdatePc} (hu : update t s.sh cpu 1 p = some (m, r)) :
    ∃ d : ℤ, m.global = s.sh.global + threshold * d ∧ Full m ⟨r.map (.update cpu 1), todo⟩ ∧
      (∀ i, i ≠ cpu → m.locals i = s.sh.locals i) ∧
      threshold * d + (m.locals cpu - s.sh.locals cpu) +
        (owed threshold cpu ⟨r.map (.update cpu 1), todo⟩ - owed threshold cpu (s.loc t)) = 0 := by
  obtain ⟨C, S, hinv⟩ := h.inv
  have ht := hinv.threshold_eq
  have hat := hinv.at_ t
  have hfull := h.full t
  rw [hl] at hat hfull ⊢
  obtain ⟨-, hat⟩ := hat
  rcases p with _ | _ | v | _ | _ | _ | g | v | _ | _ | _
  case lockLocal =>
    obtain ⟨-, hz⟩ := lock_step hu
    cases hz
    exact ⟨0, by simp [CounterT.setLlock], trivial, fun _ _ => rfl, by simp [owed, CounterT.setLlock]⟩
  case storeLocal =>
    cases hu
    obtain ⟨rfl, -⟩ := hat
    exact ⟨0, by simp [CounterT.setLocal], trivial, fun i hi => Function.update_of_ne hi _ _,
      by simp [owed, CounterT.setLocal]⟩
  case test =>
    simp only [ApproximateCounter.update] at hu
    split_ifs at hu with hc
    · cases hu
      -- the local count was below the threshold before one was added to it
      have hx : s.sh.locals cpu = s.sh.threshold := by
        obtain ⟨-, hlt⟩ := hat
        omega
      exact ⟨0, by simp, hx, fun _ _ => rfl, by simp [owed]⟩
    · cases hu
      exact ⟨0, by simp, trivial, fun _ _ => rfl, by simp [owed]⟩
  case lockGlobal =>
    obtain ⟨-, hz⟩ := lock_step hu
    cases hz
    exact ⟨0, by simp, hfull, fun _ _ => rfl, by simp [owed]⟩
  case storeGlobal =>
    cases hu
    obtain ⟨rfl, -⟩ := hat
    have hx : s.sh.locals cpu = threshold := hfull.trans ht
    exact ⟨1, by simp [hx], hfull, fun _ _ => rfl, by simp [owed]⟩
  case resetLocal =>
    cases hu
    have hx : s.sh.locals cpu = threshold := hfull.trans ht
    exact ⟨0, by simp [CounterT.setLocal], trivial, fun i hi => Function.update_of_ne hi _ _,
      by simp [owed, CounterT.setLocal, hx]⟩
  case unlockLocal =>
    cases hu
    exact ⟨0, by simp [CounterT.setLlock], trivial, fun _ _ => rfl, by simp [owed, CounterT.setLlock]⟩
  case loadLocal =>
    cases hu
    exact ⟨0, by simp, trivial, fun _ _ => rfl, by simp [owed]⟩
  all_goals
    cases hu
    exact ⟨0, by simp, hfull, fun _ _ => rfl, by simp [owed]⟩

omit [DecidableEq T] [Fintype T] in
/-- `Full` survives a step that leaves the local counts alone whose mutexes the thread has -/
theorem Full.frame {m m' : CounterT T} (h : Full m l) (ht : m'.threshold = m.threshold)
    (hl : ∀ i, inLocal i l → m'.locals i = m.locals i) : Full m' l := by
  obtain ⟨r, todo⟩ := l
  rcases r with _ | ⟨cpu, amt, p⟩ | p
  · trivial
  · have hx : p ≠ .lockLocal → m'.locals cpu = m.locals cpu := fun hp => hl cpu ⟨rfl, hp⟩
    rcases p with _ | _ | _ | _ | _ | _ | _ | _ | _ | _ | _
    case lockLocal | loadLocal | storeLocal | test | unlockLocal => trivial
    all_goals exact (hx (by simp)).trans (h.trans ht.symm)
  · trivial

/-- a step that adds `k` updates, `d` transfers, and to the local counts and to what is owed what they differ by -/
theorem UnitInv.move (h : UnitInv threshold n q s) (hT : 1 ≤ threshold)
    (hs : prog t () s.sh (s.loc t) = some (m, l, es)) {k : Fin NUMCPUS → ℕ} {d : Fin NUMCPUS → ℤ}
    (hones : Ones l.todo ∧ ∀ cpu amt p, l.running = some (.update cpu amt p) → amt = 1) (hfull : Full m l)
    (hg : m.global = s.sh.global + threshold * ∑ i, d i)
    (hslot : ∀ i, (k i : ℤ) =
      threshold * d i + (m.locals i - s.sh.locals i) + (owed threshold i l - owed threshold i (s.loc t))) :
    UnitInv threshold (fun i => n i + k i) (fun i => q i + d i) (s.move t m l) := by
  obtain ⟨C, S, hinv⟩ := h.inv
  obtain ⟨hthr, hloc⟩ := locals_step hs
  exact {
    inv := ⟨_, _, inv_step hinv hT hs⟩
    ones := s.forall_move
      (p := fun _ l => Ones l.todo ∧ ∀ cpu amt p, l.running = some (.update cpu amt p) → amt = 1) m hones
      fun u _ => h.ones u
    full := by
      refine s.forall_move (p := fun _ l => Full m l) m hfull fun u hu => ?_
      refine (h.full u).frame hthr fun i hi => ?_
      exact (hloc i).resolve_right fun hi' => hu ((hinv.llock i).unique hi hi')
    global := by
      calc m.global = ∑ i, threshold * q i + threshold * ∑ i, d i := by rw [hg, h.global]
        _ = threshold * (∑ i, q i + ∑ i, d i) := by rw [← Finset.mul_sum, mul_add]
        _ = ∑ i, threshold * (q i + d i) := by rw [← Finset.sum_add_distrib, Finset.mul_sum]
    slot := by
      intro i
      have hold := h.slot i
      have hnew := hslot i
      have hsum : ∑ u, owed threshold i ((s.move t m l).loc u) =
          ∑ u, owed threshold i (s.loc u) + (owed threshold i l - owed threshold i (s.loc t)) := by
        rw [sum_change (f := fun u => owed threshold i (s.loc u)) t]
        · simp
        · intro u hu
          simp [Function.update_of_ne hu]
      rw [hsum, St.move_sh]
      push_cast
      rw [mul_add]
      omega }

theorem Ones.sublist {todo todo' : List Op} (h : Ones todo) (hsub : todo' ⊆ todo) : Ones todo' :=
  fun threadID amt hm => h threadID amt (hsub hm)

omit [DecidableEq T] [Fintype T] in
theorem owed_idle (h : ¬ Updating l) (i : Fin NUMCPUS) : owed threshold i l = 0 := by
  unfold owed
  split
  · rename_i cpu amt p hr
    exact absurd ⟨cpu, amt, p, hr⟩ h
  · rfl

omit [DecidableEq T] [Fintype T] in
theorem Full.idle (h : ¬ Updating l) : Full m l := by
  unfold Full
  split
  · rename_i cpu amt p hr
    exact absurd ⟨cpu, amt, p, hr⟩ h
  · trivial

omit [DecidableEq T] [Fintype T] in
/-- a `get` leaves the counts alone -/
theorem get_counts {p : GetPc} {r : Option GetPc} (hu : get t s.sh p = some (m, r)) :
    m.global = s.sh.global ∧ m.locals = s.sh.locals := by
  rcases p with _ | _ | _
  case lock =>
    obtain ⟨-, hz⟩ := lock_step hu
    cases hz
    exact ⟨rfl, rfl⟩
  all_goals
    cases hu
    exact ⟨rfl, rfl⟩

/-- a step of a thread that is in no update, and begins none -/
theorem UnitInv.idle_step (h : UnitInv threshold n q s) (hT : 1 ≤ threshold)
    (hs : prog t () s.sh (s.loc t) = some (m, l, es)) (hm : m.global = s.sh.global ∧ m.locals = s.sh.locals)
    (hl : ¬ Updating (s.loc t)) (hl' : ¬ Updating l) (hsub : l.todo ⊆ (s.loc t).todo) (hes : ∀ i, updatesAt i es = 0) :
    UnitInv threshold (fun i => n i + updatesAt i es) (fun i => q i + 0) (s.move t m l) := by
  refine h.move hT hs ⟨(h.ones t).1.sublist hsub, ?_⟩ (Full.idle hl') (by simp [hm.1]) ?_
  · intro cpu amt p hr
    exact absurd ⟨cpu, amt, p, hr⟩ hl'
  · intro i
    rw [hes, hm.2, owed_idle hl, owed_idle hl']
    simp

theorem UnitInv.step (h : UnitInv threshold n q s) (hT : 1 ≤ threshold)
    (hs : prog t () s.sh (s.loc t) = some (m, l, es)) :
    ∃ q', UnitInv threshold (fun i => n i + updatesAt i es) q' (s.move t m l) := by
  have hones := h.ones t
  rcases prog_step hs with ⟨threadID, amt, cpu, todo, hl, -, -, -⟩ | ⟨todo, hl, rfl, rfl, rfl⟩ |
    ⟨cpu, amt, p, r, todo, hl, hu, rfl, rfl⟩ | ⟨p, r, todo, hl, hu, rfl, rfl⟩
  · obtain ⟨rfl, ⟨cpu, rfl⟩, hk⟩ := h.begun_step hl hs
    rw [hl] at hones
    refine ⟨_, h.move hT hs (d := fun _ => 0) ⟨hones.1.sublist (List.subset_cons_self _ _), ?_⟩ trivial (by simp) ?_⟩
    · intro cpu' amt' p' hr
      cases hr
      rfl
    · intro i
      have := hk i
      simp only [mul_zero, sub_self, zero_add]
      exact this
  · refine ⟨_, h.idle_step hT hs ⟨rfl, rfl⟩ ?_ ?_ (by rw [hl]; exact List.subset_cons_self _ _) fun _ => rfl⟩
    · rw [hl]
      rintro ⟨_, _, _, hr⟩
      cases hr
    · rintro ⟨_, _, _, hr⟩
      cases hr
  · obtain rfl : amt = 1 := hones.2 cpu amt p (by rw [hl])
    obtain ⟨d, hglob, hfull, hother, hslot⟩ := h.update_step hl hu
    rw [hl] at hones
    refine ⟨_, h.move hT hs (d := fun i => if i = cpu then d else 0) ⟨hones.1, ?_⟩ hfull (by simp [hglob]) ?_⟩
    · intro cpu' amt' p' hr
      obtain ⟨p'', -, he⟩ := Option.map_eq_some_iff.1 hr
      cases he
      rfl
    · intro i
      rw [updatesAt_updateShows]
      -- the update owes nothing to the other slots
      by_cases hi : i = cpu
      · subst hi
        simpa using hslot.symm
      · have ho : ∀ r : Option UpdatePc, owed threshold i ⟨r.map (.update cpu 1), todo⟩ = 0 := by
          intro r
          rcases r with _ | p' <;> simp [owed, Ne.symm hi]
        have ho' := ho (some p)
        rw [hl, ho r]
        simp only [Option.map_some] at ho'
        rw [ho', hother i hi, if_neg hi]
        simp
  · have hsub : todo ⊆ (s.loc t).todo := by rw [hl]; exact List.Subset.refl _
    refine ⟨_, h.idle_step hT hs (get_counts hu) ?_ ?_ hsub fun i => updatesAt_getShows i t p⟩
    · rw [hl]
      rintro ⟨_, _, _, hr⟩
      cases hr
    · rintro ⟨_, _, _, hr⟩
      rcases r with _ | p' <;> cases hr

/-! ## Runs -/

/-- the updates of a slot that have begun, and those that the threads have yet to make -/
def allCalls (i : Fin NUMCPUS) (tr : List (Event T)) (s : St T (CounterT T) Loc) : ℕ :=
  updatesAt i tr + ∑ t, callsAt i (s.loc t).todo

omit [DecidableEq T] [Fintype T] in
/-- a call that begins is taken from the calls of the thread -/
theorem callsAt_step (hs : prog t () s.sh (s.loc t) = some (m, l, es)) (i : Fin NUMCPUS) :
    callsAt i (s.loc t).todo = callsAt i l.todo + updatesAt i es := by
  rcases prog_step hs with ⟨threadID, amt, cpu, todo, hl, rfl, rfl, rfl⟩ | ⟨todo, hl, rfl, rfl, rfl⟩ |
    ⟨cpu, amt, p, r, todo, hl, hu, rfl, rfl⟩ | ⟨p, r, todo, hl, hu, rfl, rfl⟩
  · rw [hl]
    simp only [callsAt, updatesAt, List.countP_cons, List.countP_nil, zero_add]
    rfl
  · rw [hl]
    rfl
  · rw [hl, updatesAt_updateShows]
    rfl
  · rw [hl, updatesAt_getShows]
    rfl

theorem allCalls_step {tr : List (Event T)} (hs : prog t () s.sh (s.loc t) = some (m, l, es)) (i : Fin NUMCPUS) :
    allCalls i (tr ++ es) (s.move t m l) = allCalls i tr s := by
  have hcalls := callsAt_step hs i
  have htotal := total_update (fun l : Loc => callsAt i l.todo) s.loc t l
  simp only [total] at htotal
  unfold allCalls
  rw [updatesAt_append, St.move_loc]
  omega

omit [DecidableEq T] in
theorem UnitInv.start (hT : 1 ≤ threshold) {todo : T → List Op} (hones : ∀ t, Ones (todo t)) :
    UnitInv threshold (fun _ => 0) (fun _ => 0) (start threshold todo) where
  inv := ⟨0, 0, Inv.start hT fun t threadID amt hm => by rw [(hones t threadID amt hm).2]; decide⟩
  ones t := ⟨hones t, fun cpu amt p hr => by cases hr⟩
  full t := trivial
  global := by simp [ApproximateCounter.start, init]
  slot i := by simp [ApproximateCounter.start, init, owed]

theorem run_unitInv (hT : 1 ≤ threshold) {todo : T → List Op} (hones : ∀ t, Ones (todo t)) {as : List (T × Unit)}
    {tr : List (Event T)} (h : Run prog (ApproximateCounter.start threshold todo) as tr s) :
    ∃ q, UnitInv threshold (fun i => updatesAt i tr) q s := by
  refine h.inv_trace (I := fun tr s => ∃ q, UnitInv threshold (fun i => updatesAt i tr) q s)
    ⟨_, UnitInv.start hT hones⟩ ?_
  rintro tr s t ⟨⟩ m l es ⟨q, hq⟩ hs
  obtain ⟨q', hq'⟩ := hq.step hT hs
  refine ⟨q', ?_⟩
  simp only [updatesAt_append]
  exact hq'

theorem run_allCalls {todo : T → List Op} {as : List (T × Unit)} {tr : List (Event T)}
    (h : Run prog (ApproximateCounter.start threshold todo) as tr s) (i : Fin NUMCPUS) :
    allCalls i tr s = ∑ t, callsAt i (todo t) := by
  refine h.inv_trace (I := fun tr s => allCalls i tr s = ∑ t, callsAt i (todo t)) ?_ ?_
  · simp [allCalls, updatesAt, ApproximateCounter.start]
  · intro tr s t _ m l es hi hs
    rw [allCalls_step hs, hi]

/-! ## Results -/

/-- what is transferred of `n i` updates of each slot `i` -/
def transfers (threshold : ℤ) (n : Fin NUMCPUS → ℕ) : ℤ := ∑ i, threshold * ((n i : ℤ) / threshold)

omit [DecidableEq T] in
/-- with no update running, a slot has been transferred as often as the threshold fits in its updates -/
theorem UnitInv.quiescent (h : UnitInv threshold n q s) (hT : 1 ≤ threshold) (hq : ∀ t, ¬ Updating (s.loc t)) :
    s.sh.global = transfers threshold n := by
  obtain ⟨C, S, hinv⟩ := h.inv
  obtain ⟨-, -, hlocals⟩ := hinv.quiescent hq
  rw [h.global]
  refine Finset.sum_congr rfl fun i _ => ?_
  have howed : ∑ t, owed threshold i (s.loc t) = 0 := Finset.sum_eq_zero fun t _ => owed_idle (hq t) i
  have hslot := h.slot i
  rw [howed, add_zero] at hslot
  obtain ⟨h0, hlt⟩ := hlocals i
  have hdiv : (n i : ℤ) / threshold = q i :=
    calc (n i : ℤ) / threshold = (s.sh.locals i + threshold * q i) / threshold := by rw [hslot, add_comm]
      _ = s.sh.locals i / threshold + q i := Int.add_mul_ediv_left _ _ (by omega)
      _ = q i := by rw [Int.ediv_eq_zero_of_lt h0 hlt, zero_add]
  rw [hdiv]

/-- what holds of a run on which no update begins, from a state in which none is running and the global count is `g` -/
structure Quiet (threshold g : ℤ) (tr : List (Event T)) (s : St T (CounterT T) Loc) : Prop where
  inv : ∃ C S, Inv threshold C S s
  idle : ∀ t, ¬ Updating (s.loc t)
  global : s.sh.global = g
  got : ∀ t val, .got t val ∈ tr → val = g

theorem Quiet.step {g : ℤ} {tr : List (Event T)} (h : Quiet threshold g tr s) (hT : 1 ≤ threshold)
    (hs : prog t () s.sh (s.loc t) = some (m, l, es)) (hb : ∀ u threadID amt, .begun u threadID amt ∉ es) :
    Quiet threshold g (tr ++ es) (s.move t m l) := by
  obtain ⟨C, S, hinv⟩ := h.inv
  have hidle : ¬ Updating l ∧ m.global = s.sh.global := by
    rcases prog_step hs with ⟨threadID, amt, _, _, -, -, -, rfl⟩ | ⟨todo, hl, rfl, rfl, rfl⟩ |
      ⟨cpu, amt, p, r, todo, hl, -, -, -⟩ | ⟨p, r, todo, hl, hu, rfl, rfl⟩
    · exact absurd List.mem_cons_self (hb t threadID amt)
    · refine ⟨?_, rfl⟩
      rintro ⟨_, _, _, hr⟩
      cases hr
    · exact absurd ⟨cpu, amt, p, by rw [hl]⟩ (h.idle t)
    · refine ⟨?_, (get_counts hu).1⟩
      rintro ⟨_, _, _, hr⟩
      rcases r with _ | p' <;> cases hr
  exact {
    inv := ⟨_, _, inv_step hinv hT hs⟩
    idle := s.forall_move (p := fun _ l => ¬ Updating l) m hidle.1 fun u _ => h.idle u
    global := hidle.2.trans h.global
    got := by
      intro u val hmem
      rcases List.mem_append.1 hmem with hmem | hmem
      · exact h.got u val hmem
      · rcases get_events hs hmem with ⟨_, _, h1⟩ | ⟨_, h1⟩ | ⟨h1, -⟩ | ⟨_, h1, hr, -⟩ <;> cases h1
        have hat := hinv.at_ t
        unfold At at hat
        rw [hr] at hat
        exact hat.trans h.global }

omit [DecidableEq T] [Fintype T] in
/-- a `get` on a free `glock` -/
theorem get_alone {todo : List Op} (hl : l = ⟨none, .get :: todo⟩) (hm : m.glock = none) :
    Alone prog t m l [.locked t, .got t m.global] m ⟨none, todo⟩ := by
  subst hl
  have hm' : { m with glock := none } = m := by rw [← hm]
  have h1 : prog t () m ⟨none, .get :: todo⟩ = some (m, ⟨some (.get .lock), todo⟩, []) := rfl
  have h2 : prog t () m ⟨some (.get .lock), todo⟩ =
      some ({ m with glock := some t }, ⟨some (.get .load), todo⟩, [.locked t]) := by
    simp [prog, get, lock, hm, getShows]
  have h3 : prog t () { m with glock := some t } ⟨some (.get .load), todo⟩ =
      some ({ m with glock := some t }, ⟨some (.get (.unlock m.global)), todo⟩, []) := rfl
  have h4 : prog t () { m with glock := some t } ⟨some (.get (.unlock m.global)), todo⟩ =
      some (m, ⟨none, todo⟩, [.got t m.global]) := by
    simp [prog, get, getShows, hm']
  exact .silent h1 (.head h2 (.silent h3 (.single h4)))

/-- **Unit updates.** In every run of updates that add one, with a threshold of at least 1 and ids that are not negative,
and in every state in which no update is running: the global count is the sum over the slots of the threshold times how
often it fits in the number of the slot's updates. A `get` on a free `glock` returns it, and so does every `get` that
returns before another update begins. After all calls it does not depend on the order of the steps. -/
theorem unit_updates (threshold : ℤ) (hT : 1 ≤ threshold) (todo : T → List Op)
    (hones : ∀ t threadID amt, .update threadID amt ∈ todo t → 0 ≤ threadID ∧ amt = 1) {as : List (T × Unit)}
    {tr : List (Event T)} {s : St T (CounterT T) Loc} (h : Run prog (start threshold todo) as tr s)
    (hq : ∀ t, ¬ Updating (s.loc t)) :
    s.sh.global = transfers threshold (fun i => updatesAt i tr) ∧
    (∀ t todo', s.loc t = ⟨none, .get :: todo'⟩ → s.sh.glock = none →
      Alone prog t s.sh (s.loc t) [.locked t, .got t (transfers threshold fun i => updatesAt i tr)] s.sh
        ⟨none, todo'⟩) ∧
    (∀ bs tr' s', Run prog s bs tr' s' → (∀ t threadID amt, .begun t threadID amt ∉ tr') →
      ∀ t val, .got t val ∈ tr' → val = transfers threshold fun i => updatesAt i tr) ∧
    ((∀ t, (s.loc t).todo = []) → s.sh.global = transfers threshold fun i => ∑ t, callsAt i (todo t)) := by
  obtain ⟨q, hu⟩ := run_unitInv hT hones h
  have hglobal := hu.quiescent hT hq
  refine ⟨hglobal, ?_, ?_, ?_⟩
  · intro t todo' hl hm
    rw [← hglobal]
    exact get_alone hl hm
  · intro bs tr' s' h' hb
    have hquiet : (∀ t threadID amt, .begun t threadID amt ∉ tr') → Quiet threshold s.sh.global tr' s' := by
      refine h'.inv_trace (I := fun tr' s' => (∀ t threadID amt, Event.begun t threadID amt ∉ tr') →
        Quiet threshold s.sh.global tr' s') (fun _ => ⟨hu.inv, hq, rfl, by simp⟩) ?_
      intro tr' s' t _ m l es ih hs hb
      simp only [List.mem_append, not_or] at hb
      exact (ih fun u threadID amt => (hb u threadID amt).1).step hT hs fun u threadID amt => (hb u threadID amt).2
    rw [← hglobal]
    exact (hquiet hb).got
  · intro hdone
    have hn : (fun i => updatesAt i tr) = fun i => ∑ t, callsAt i (todo t) := by
      funext i
      have hall := run_allCalls h i
      simp only [allCalls, hdone] at hall
      simpa [callsAt] using hall
    rw [hglobal, hn]

/-- two threads race for the slot of the ids 0, 8 and 16, and one has an update of another slot -/
def raced : Fin 2 → List Op := fun t => if t = 0 then [.update 8 1, .update 0 1] else [.update 16 1, .update 1 1, .get]

def race : List (Fin 2 × Unit) :=
  ([0, 1] ++ List.replicate 6 (0 : Fin 2) ++ List.replicate 11 1 ++ List.replicate 5 0 ++ List.replicate 10 1).map
    fun t => (t, ())

theorem unit_updates_raced : ∃ s : St (Fin 2) (CounterT (Fin 2)) Loc, ∃ tr, Run prog (start 2 raced) race tr s ∧
    gots tr = [2] ∧ s.sh.global = transfers 2 (fun i => updatesAt i tr) ∧
    s.sh.global = transfers 2 fun i => ∑ t, callsAt i (raced t) := by
  obtain ⟨s, tr, h, hg, hq⟩ := exec_any_run prog (start 2 raced) race
    (fun s tr => gots tr = [2] ∧ ∀ t, (s.loc t).running = none ∧ (s.loc t).todo = []) (by decide)
  have hones : ∀ t threadID amt, Op.update threadID amt ∈ raced t → 0 ≤ threadID ∧ amt = 1 := by
    intro t threadID amt hm
    unfold raced at hm
    split_ifs at hm <;>
    · simp only [List.mem_cons, Op.update.injEq, List.not_mem_nil, or_false, reduceCtorEq] at hm
      omega
  obtain ⟨h1, -, -, h4⟩ := unit_updates 2 (by decide) raced hones h fun t => by
    rintro ⟨cpu, amt, p, hr⟩
    rw [(hq t).1] at hr
    cases hr
  exact ⟨s, tr, h, hg, h1, h4 fun t => (hq t).2⟩

end OsPractice.ApproximateCounter
