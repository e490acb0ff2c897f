/-
What the test program of `lock_coupling.c` prints and frees, and that it ends.

The inserts of a thread run in the order of its range, and the ranges are disjoint, so the order of the locks on the
head node decides only how the ranges are merged (`AllDone.filter`). Every step of the process brings it nearer to its
end (`left_step`), and only the return of `main` leaves nothing to do.

Results:
- `main_prints`: the printed list;
- `main_frees`: `main` touches allocated nodes only, frees each node once, and nothing is left allocated;
- `main_total`: every run is finite, and stops only when `main` has returned.
-/
import OsPractice.Concurrency.LockCouplingMain
import OsPractice.Concurrency.LockCouplingProgress

namespace OsPractice.LockCouplingMain

open Interleave Heap LockCoupling
open LockCouplingPrint (PrintPc Output listPrint)

variable {n : ℕ} {T : Type}

/-! ## The values on the list -/

/-- the values whose inserts have locked the head node, in that order -/
def lockedValues (es : List (LockCoupling.Event T)) : List ℤ :=
  es.filterMap fun
    | .locked _ (.insert v) => some v
    | _ => none

/-- the values whose inserts have failed -/
def failedValues (es : List (LockCoupling.Event T)) : List ℤ :=
  es.filterMap fun
    | .failed _ v => some v
    | _ => none

/-- the values for which `malloc` has returned NULL -/
def failed (tr : List (MainEvent T)) : List ℤ := failedValues (listEvents tr)

/-- the threads have run all their inserts, with the events `es` -/
def AllDone (es : List (LockCoupling.Event (Thread n))) : Prop := ∀ t, opsBy t es = opsOf t

section Values

variable {es : List (LockCoupling.Event (Thread n))} {t : Thread n} {v : ℤ}

theorem eq_of_nodup_filterMap {α β : Type} {f : α → Option β} {l : List α} (h : (l.filterMap f).Nodup) {a b : α} {c : β}
    (ha : a ∈ l) (hb : b ∈ l) (hfa : f a = some c) (hfb : f b = some c) : a = b := by
  induction l with
  | nil => cases ha
  | cons x l ih =>
    have hmem : ∀ {y}, y ∈ l → f y = some c → c ∈ l.filterMap f := fun hy hfy => List.mem_filterMap.2 ⟨_, hy, hfy⟩
    rcases List.mem_cons.1 ha with rfl | ha' <;> rcases List.mem_cons.1 hb with rfl | hb'
    · rfl
    · rw [List.filterMap_cons_some hfa] at h
      exact absurd (hmem hb' hfb) (List.nodup_cons.1 h).1
    · rw [List.filterMap_cons_some hfb] at h
      exact absurd (hmem ha' hfa) (List.nodup_cons.1 h).1
    · refine ih ?_ ha' hb'
      cases hx : f x with
      | none => rwa [List.filterMap_cons_none hx] at h
      | some d =>
        rw [List.filterMap_cons_some hx] at h
        exact (List.nodup_cons.1 h).2

theorem AllDone.range (h : AllDone es) {op : Op} (hop : op ∈ opsBy t es) :
    ∃ i : Fin n, t = some i ∧ ∃ v ∈ rangeValues (rangeOf i), op = .insert v := by
  rw [h t] at hop
  cases t with
  | none => cases hop
  | some i =>
    obtain ⟨v, hv, rfl⟩ := List.mem_map.1 hop
    exact ⟨i, rfl, v, hv, rfl⟩

theorem AllDone.locked (h : AllDone es) {op : Op} (he : .locked t op ∈ es) :
    ∃ i : Fin n, t = some i ∧ ∃ v ∈ rangeValues (rangeOf i), op = .insert v :=
  h.range (List.mem_filterMap.2 ⟨_, he, if_pos rfl⟩)

theorem AllDone.failed (h : AllDone es) (he : .failed t v ∈ es) :
    ∃ i : Fin n, t = some i ∧ v ∈ rangeValues (rangeOf i) := by
  have hop : .insert v ∈ opsBy t es := List.mem_filterMap.2 ⟨_, he, if_pos rfl⟩
  obtain ⟨i, hi, v', hv', heq⟩ := h.range hop
  cases heq
  exact ⟨i, hi, hv'⟩

theorem range_disjoint {i j : Fin n} (hi : v ∈ rangeValues (rangeOf i)) (hj : v ∈ rangeValues (rangeOf j)) : i = j := by
  rw [mem_rangeValues] at hi hj
  simp only [rangeOf] at hi hj
  exact Fin.ext (by omega)

/-- a value is inserted, or its insert fails, but not both -/
theorem AllDone.not_failed (h : AllDone es) {i : Fin n} (he : .locked (some i) (.insert v) ∈ es) :
    v ∉ failedValues es := by
  intro hv
  obtain ⟨e, he', hf⟩ := List.mem_filterMap.1 hv
  cases e with
  | locked u op => cases hf
  | failed u w =>
    obtain rfl : w = v := Option.some.inj hf
    obtain ⟨i', hi', w', hw, heq⟩ := h.locked he
    obtain ⟨j, rfl, hj⟩ := h.failed he'
    cases hi'
    cases heq
    obtain rfl := range_disjoint hw hj
    have hnd : (opsBy (some i) es).Nodup := by
      rw [h]
      exact (rangeValues_nodup _).map fun a b hab => Op.insert.inj hab
    have := eq_of_nodup_filterMap hnd he he' (if_pos rfl) (if_pos rfl)
    cases this

/-- inserts put the last value first -/
theorem sequential_inserts (h : ∀ t op, .locked t op ∈ es → ∃ v, op = .insert v) :
    sequential es = (lockedValues es).reverse := by
  induction es using List.reverseRecOn with
  | nil => rfl
  | append_singleton es e ih =>
    have ih := ih fun t op he => h t op (List.mem_append_left _ he)
    rw [sequential_append, ih]
    cases e with
    | failed t v => simp [lockedValues, Event.apply]
    | locked t op =>
      obtain ⟨v, rfl⟩ := h t op (by simp)
      simp [lockedValues, Event.apply, Op.apply]

theorem AllDone.sequential (h : AllDone es) : sequential es = (lockedValues es).reverse :=
  sequential_inserts fun t op he => by
    obtain ⟨i, -, v, -, rfl⟩ := h.locked he
    exact ⟨v, rfl⟩

/-- the inserted values of one range stand on the list from the last one to the first -/
theorem AllDone.filter (h : AllDone es) (i : Fin n) :
    (LockCoupling.sequential es).filter (· ∈ rangeValues (rangeOf i)) =
      ((rangeValues (rangeOf i)).filter (· ∉ failedValues es)).reverse := by
  rw [h.sequential, List.filter_reverse]
  congr 1
  have hmap : ((lockedValues es).filter (· ∈ rangeValues (rangeOf i))).map Op.insert =
      (opsBy (some i) es).filter fun op => ∀ v ∈ failedValues es, op ≠ .insert v := by
    -- event by event; what is known of the events is known of those seen so far
    suffices hsub : ∀ es', es' ⊆ es → ((lockedValues es').filter (· ∈ rangeValues (rangeOf i))).map Op.insert =
        (opsBy (some i) es').filter fun op => ∀ v ∈ failedValues es, op ≠ .insert v from hsub es fun _ he => he
    intro es' hes
    induction es' with
    | nil => rfl
    | cons e es' ih =>
      have ih := ih fun e' he' => hes (List.mem_cons_of_mem e he')
      have he := hes List.mem_cons_self
      rw [← List.singleton_append, opsBy_append, List.filter_append, ← ih]
      cases e with
      | failed t v =>
        obtain ⟨j, rfl, hj⟩ := h.failed he
        have hv : v ∈ failedValues es := List.mem_filterMap.2 ⟨_, he, rfl⟩
        rw [opsBy_failed]
        split_ifs <;> simp [lockedValues, hv]
      | locked t op =>
        obtain ⟨j, rfl, v, hv, rfl⟩ := h.locked he
        have hnot := h.not_failed he
        rw [opsBy_locked]
        by_cases hij : j = i
        · subst hij
          have hkeep : ∀ w ∈ failedValues es, v ≠ w := fun w hw hvw => hnot (hvw ▸ hw)
          rw [if_pos rfl, List.filter_cons_of_pos (by simpa using hkeep)]
          simp [lockedValues, hv]
        · have hno : v ∉ rangeValues (rangeOf i) := fun hvi => hij (range_disjoint hv hvi)
          simp [lockedValues, hno, hij]
  rw [h (some i), opsOf, List.filter_map] at hmap
  refine (List.map_injective_iff.2 fun a b hab => Op.insert.inj hab) (hmap.trans ?_)
  congr 1
  refine List.filter_congr fun v _ => ?_
  simp only [Function.comp_apply, ne_eq, Op.insert.injEq, decide_eq_decide]
  exact ⟨fun hne hv => hne v hv rfl, fun hno w hw hvw => hno (hvw ▸ hw)⟩

theorem AllDone.mem_range (h : AllDone es) (hv : v ∈ LockCoupling.sequential es) :
    ∃ i : Fin n, v ∈ rangeValues (rangeOf i) := by
  rw [h.sequential, List.mem_reverse] at hv
  obtain ⟨e, he, hf⟩ := List.mem_filterMap.1 hv
  cases e with
  | failed u w => cases hf
  | locked u op =>
    obtain ⟨i, rfl, w, hw, rfl⟩ := h.locked he
    obtain rfl : w = v := Option.some.inj hf
    exact ⟨i, hw⟩

theorem AllDone.nodup (h : AllDone es) : (LockCoupling.sequential es).Nodup := by
  rw [List.nodup_iff_count_le_one]
  intro v
  by_cases hv : v ∈ LockCoupling.sequential es
  · obtain ⟨i, hi⟩ := h.mem_range hv
    have hnd : ((LockCoupling.sequential es).filter (· ∈ rangeValues (rangeOf i))).Nodup := by
      rw [h.filter i]
      exact List.nodup_reverse.2 ((rangeValues_nodup _).filter _)
    have hcount := List.nodup_iff_count_le_one.1 hnd v
    rwa [List.count_filter (by simpa using hi)] at hcount
  · rw [List.count_eq_zero_of_not_mem hv]
    exact Nat.zero_le 1

theorem mem_ranges : (∃ i : Fin n, v ∈ rangeValues (rangeOf i)) ↔ v ∈ (List.range (10 * n)).map ((↑) : ℕ → ℤ) := by
  simp only [mem_rangeValues, rangeOf, List.mem_map, List.mem_range]
  refine ⟨?_, ?_⟩
  · rintro ⟨i, h1, h2⟩
    have := i.isLt
    exact ⟨v.toNat, by omega, by omega⟩
  · rintro ⟨k, hk, rfl⟩
    exact ⟨⟨k / 10, by omega⟩, by simp only; omega, by simp only; omega⟩

theorem AllDone.length_le (h : AllDone es) : (LockCoupling.sequential es).length ≤ 10 * n := by
  have hsub : LockCoupling.sequential es ⊆ (List.range (10 * n)).map ((↑) : ℕ → ℤ) :=
    fun v hv => mem_ranges.1 (h.mem_range hv)
  have hlen := (List.subperm_of_subset h.nodup hsub).length_le
  simpa using hlen

/-- with no failure every value is there once -/
theorem AllDone.perm (h : AllDone es) (hf : failedValues es = []) :
    (LockCoupling.sequential es).Perm ((List.range (10 * n)).map ((↑) : ℕ → ℤ)) := by
  rw [List.perm_ext_iff_of_nodup h.nodup (List.nodup_range.map Nat.cast_injective)]
  intro v
  rw [← mem_ranges]
  refine ⟨h.mem_range, ?_⟩
  rintro ⟨i, hi⟩
  have hmem : v ∈ (LockCoupling.sequential es).filter (· ∈ rangeValues (rangeOf i)) := by
    rw [h.filter i, hf]
    simpa using hi
  exact (List.mem_filter.1 hmem).1

end Values

/-! ## What the program prints and frees -/

section Results

variable {cell : Addr → Node (Thread n)} {a : Addr} {as : List (Thread n × Alloc (Node (Thread n)))}
  {tr : List (MainEvent (Thread n))} {s : St (Thread n) (Process n) Loc} {u : LockCoupling.Global (Thread n)}
  {p : MainPoint}

/-- after the last join, all inserts have run -/
theorem Reached.allDone (h : Reached cell a tr s p u) (hall : ∀ t : Fin n, Joined p t) : AllDone (listEvents tr) := by
  obtain ⟨as, hrun⟩ := h.run
  intro t
  have hloc : u.loc t = ⟨none, []⟩ := by
    cases t with
    | none => exact h.threads.main
    | some t => exact h.threads.exited t (h.joined t (hall t))
  have hlog := ops_logged hrun t
  rw [hloc] at hlog
  simpa [unlogged] using hlog

/-- the node that the next step of `main` locks, reads, unlocks, destroys or frees -/
def touched : MainPoint → Option Addr
  | .print p => LockCouplingPrint.touches (some (.print p))
  | .free (.loadNext curr) => some curr
  | .free (.destroy temp _) => some temp
  | .free (.free temp _) => some temp
  | _ => none

/-- the node whose mutex the next step of `main` destroys -/
def destroyed : MainPoint → Option Addr
  | .free (.destroy temp _) => some temp
  | _ => none

theorem At.touched_live {x₀ x : State T} {A fs : List Addr} {vs ps : List ℤ} {me : T} {b : Addr}
    (hC : Complete x₀ A vs) (h : At x₀ x A vs ps fs me p) (hb : touched p = some b) : x.mem.live b = true := by
  have hmem : ∀ {L rest : List Addr} {c : Addr}, A = L ++ c :: rest → x₀.mem.live c = true :=
    fun hA => (hC.live _).2 (hA ▸ List.mem_append_right _ List.mem_cons_self)
  cases p with
  | print p =>
    cases p with
    | loadHead => cases hb
    | loadFirst head =>
      obtain ⟨rfl, -, -, rfl⟩ := h
      cases hb
      obtain ⟨rest, hA⟩ := hC.head
      exact hmem hA
    | lock curr =>
      obtain ⟨rfl, -, L, rest, hA, -⟩ := h
      cases hb
      exact hmem hA
    | printVal curr =>
      obtain ⟨rfl, -, L, rest, hA, -⟩ := h
      cases hb
      exact hmem hA
    | loadNext curr =>
      obtain ⟨rfl, -, L, rest, hA, -⟩ := h
      cases hb
      exact hmem hA
    | unlock temp curr =>
      obtain ⟨rfl, -, L, rest, hA, -⟩ := h
      cases hb
      exact hmem hA
  | free p =>
    cases p with
    | loadHead => cases hb
    | loadNext curr =>
      obtain ⟨-, hlive, -, rest, hA⟩ := h
      cases hb
      exact (hlive _).2 (hC.notMem hA)
    | destroy temp curr =>
      obtain ⟨-, hlive, -, rest, hA, -⟩ := h
      cases hb
      exact (hlive _).2 (hC.notMem hA)
    | free temp curr =>
      obtain ⟨-, hlive, -, rest, hA, -⟩ := h
      cases hb
      exact (hlive _).2 (hC.notMem hA)
  | _ => cases hb

theorem At.destroyed_free {x₀ x : State T} {A fs : List Addr} {vs ps : List ℤ} {me : T} {b : Addr}
    (hC : Complete x₀ A vs) (h : At x₀ x A vs ps fs me p) (hb : destroyed p = some b) : (x.node b).mutex = none := by
  cases p with
  | free p =>
    cases p with
    | destroy temp curr =>
      obtain ⟨-, -, hnode, rest, hA, -⟩ := h
      cases hb
      obtain ⟨hmem, hnot⟩ := hC.notMem hA
      rw [hnode b hmem hnot]
      exact hC.mutex b hmem
    | _ => cases hb
  | _ => cases hb

/-- the freed nodes are the first ones of the list -/
theorem At.freed_initial {x₀ x : State T} {A fs : List Addr} {vs ps : List ℤ} {me : T}
    (h : At x₀ x A vs ps fs me p) : fs <+: A := by
  cases p with
  | create i => cases h
  | join i => cases h
  | print p => cases p <;> (rw [h.2.1]; exact List.nil_prefix)
  | newline => rw [h.2.1]; exact List.nil_prefix
  | returned => rw [h.2.2]
  | free p =>
    cases p with
    | loadHead => rw [h.2.1]; exact List.nil_prefix
    | loadNext curr =>
      obtain ⟨-, -, -, rest, hA⟩ := h
      exact ⟨_, hA.symm⟩
    | destroy temp curr =>
      obtain ⟨-, -, -, rest, hA, -⟩ := h
      exact ⟨_, hA.symm⟩
    | free temp curr =>
      obtain ⟨-, -, -, rest, hA, -⟩ := h
      exact ⟨_, hA.symm⟩

/-- **The printed list.** A finished run has printed values of the ranges only; those of one range are the values whose
`malloc` succeeded, from the last one to the first; with no failure the list is a permutation of all values. -/
theorem main_prints (h : Run program (programStart n cell a) as tr s) (hret : s.loc none = .main .returned) :
    (∀ i : Fin n, (printed tr).filter (· ∈ rangeValues (rangeOf i)) =
      ((rangeValues (rangeOf i)).filter (· ∉ failed tr)).reverse) ∧
    (∀ v ∈ printed tr, ∃ i : Fin n, v ∈ rangeValues (rangeOf i)) ∧
    (failed tr = [] → (printed tr).Perm ((List.range (10 * n)).map ((↑) : ℕ → ℤ))) := by
  obtain ⟨p, u, hr⟩ := run_reached h
  obtain rfl : p = .returned := by
    have hmain := hr.main
    rw [hret] at hmain
    cases hmain
    rfl
  rcases hr.phase with ⟨⟨i, hp⟩ | ⟨i, hp⟩, -⟩ | ⟨hall, A, -, hvals, -⟩
  · cases hp
  · cases hp
  · have hdone := hr.allDone hall
    rw [hvals]
    exact ⟨hdone.filter, fun v hv => hdone.mem_range hv, hdone.perm⟩

def times (k : ℕ) (t : Thread 2) (o : Option Addr) : List (Thread 2 × Alloc (Node (Thread 2))) :=
  List.replicate k (t, ⟨o, ⟨none, 0, none⟩⟩)

/-- two threads that take turns, and a `malloc` that fails for the value 11 -/
def schedule : List (Thread 2 × Alloc (Node (Thread 2))) :=
  times 3 none none ++ times 11 (some 0) (some 1) ++
    (List.range 4).flatMap (fun k => times 13 (some 0) (some (k + 2))) ++ times 13 (some 1) (some 6) ++
    times 2 (some 1) none ++ (List.range 8).flatMap (fun k => times 13 (some 1) (some (k + 7))) ++
    (List.range 5).flatMap (fun k => times 13 (some 0) (some (k + 15))) ++ times 1 (some 0) none ++
    times 1 (some 1) none ++ times 143 none none

theorem schedule_run : ∃ s tr, Run program (programStart 2 (fun _ => ⟨none, 0, none⟩) 0) schedule tr s ∧
    s.loc none = .main .returned ∧ failed tr = [11] :=
  exec_any_run program (programStart 2 (fun _ => ⟨none, 0, none⟩) 0) schedule
    (fun s tr => s.loc none = .main .returned ∧ failed tr = [11]) (by decide +kernel)

theorem main_prints_two :
    ∃ as tr s, Run program (programStart 2 (fun _ => ⟨none, 0, none⟩) 0) as tr s ∧
      (printed tr).filter (· ∈ rangeValues (rangeOf 0)) = [9, 8, 7, 6, 5, 4, 3, 2, 1, 0] ∧
      (printed tr).filter (· ∈ rangeValues (rangeOf 1)) = [19, 18, 17, 16, 15, 14, 13, 12, 10] := by
  obtain ⟨s, tr, h, hret, hfail⟩ := schedule_run
  obtain ⟨hrange, -⟩ := main_prints h hret
  rw [hfail] at hrange
  exact ⟨_, tr, s, h, hrange 0, hrange 1⟩

/-- **The memory.** In every reachable state, what the next step of `main` locks, reads, unlocks, destroys or frees is
an allocated node, and a mutex is not destroyed while it is locked. No node is freed twice; when `main` has returned,
the head node and one node for each printed value have been freed, and nothing is left allocated. -/
theorem main_frees (h : Run program (programStart n cell a) as tr s) (hp : s.loc none = .main p) :
    (∀ b, touched p = some b → s.sh.list.mem.live b = true) ∧
    (∀ b, destroyed p = some b → (s.sh.list.node b).mutex = none) ∧
    (freed tr).Nodup ∧
    (p = .returned → (freed tr).length = (printed tr).length + 1 ∧ ∀ b, s.sh.list.mem.live b = false) := by
  obtain ⟨q, u, hr⟩ := run_reached h
  obtain rfl : q = p := by
    have hmain := hr.main
    rw [hp] at hmain
    cases hmain
    rfl
  rcases hr.phase with ⟨hq, -, -, hf⟩ | ⟨hall, A, hC, hat⟩
  · rw [hf]
    rcases hq with ⟨i, rfl⟩ | ⟨i, rfl⟩ <;>
      exact ⟨fun b hb => (by cases hb), fun b hb => (by cases hb), List.nodup_nil, fun hb => (by cases hb)⟩
  · refine ⟨fun b hb => hat.touched_live hC hb, fun b hb => hat.destroyed_free hC hb,
      hat.freed_initial.sublist.nodup hC.chain.nodup, ?_⟩
    rintro rfl
    obtain ⟨hvals, hlive, hfreed⟩ := hat
    refine ⟨?_, hlive⟩
    have hlen := congrArg List.length hC.vals
    rw [List.length_map, List.length_cons] at hlen
    rw [hfreed, hvals, hlen]

theorem main_frees_two :
    ∃ as tr s, Run program (programStart 2 (fun _ => ⟨none, 0, none⟩) 0) as tr s ∧
      (freed tr).length = (printed tr).length + 1 ∧ ∀ b, s.sh.list.mem.live b = false := by
  obtain ⟨s, tr, h, hret, -⟩ := schedule_run
  exact ⟨_, tr, s, h, (main_frees h hret).2.2.2 rfl⟩

end Results

/-! ## The steps that are left -/

def insertLeft : InsertPc → ℕ
  | .malloc => 12
  | .storeVal _ => 11
  | .storeNull _ => 10
  | .mutexInit _ => 9
  | .loadHead _ => 8
  | .lockPrev _ _ => 7
  | .loadCurr _ _ => 6
  | .lockCurr _ _ _ => 5
  | .storePrevNext _ _ _ => 4
  | .storeNewNext _ _ _ => 3
  | .unlockCurr _ _ => 2
  | .unlockPrev _ => 1

/-- for a thread, with its exit -/
def workerLeft : Bool × Loc → ℕ
  | (false, .worker l) =>
    match l.insert with
    | some p => insertLeft p + 13 * (l.range.b - l.i).toNat + 1
    | none => 13 * (l.range.b + 1 - l.i).toNat + 1
  | _ => 0

/-- for `main`, with at most `10 * n` values on the list, `ps` of them printed and `fs` nodes freed -/
def mainLeft (n ps fs : ℕ) : MainPoint → ℕ
  | .create i => (n - i) + n + 70 * n + 10
  | .join i => (n - i) + 70 * n + 9
  | .print .loadHead => 70 * n + 8
  | .print (.loadFirst _) => 70 * n + 7
  | .print (.lock _) => 4 * (10 * n - ps) + 30 * n + 6
  | .print (.printVal _) => 4 * (10 * n - ps) + 30 * n + 5
  | .print (.loadNext _) => 4 * (10 * n - ps) + 30 * n + 8
  | .print (.unlock _ _) => 4 * (10 * n - ps) + 30 * n + 7
  | .newline => 30 * n + 5
  | .free .loadHead => 30 * n + 4
  | .free (.loadNext _) => 3 * (10 * n + 1 - fs)
  | .free (.destroy _ _) => 3 * (10 * n + 1 - fs) - 1
  | .free (.free _ _) => 3 * (10 * n + 1 - fs) - 2
  | .returned => 0

/-- a bound on the steps of the process that are left -/
def left (tr : List (MainEvent (Thread n))) (s : St (Thread n) (Process n) Loc) (p : MainPoint) : ℕ :=
  total workerLeft (fun t : Fin n => (s.sh.exited t, s.loc (some t))) +
    mainLeft n (printed tr).length (freed tr).length p

theorem insert_left {t : Thread n} {v : ℤ} {c : Alloc (Node (Thread n))} {x x' : State (Thread n)} {q : InsertPc}
    {r : Option InsertPc} {es : List (LockCoupling.Event (Thread n))}
    (h : listInsert t v c x q = some (x', r, es)) :
    (∀ r', r = some r' → insertLeft r' < insertLeft q) ∧ 0 < insertLeft q := by
  cases q with
  | malloc =>
    simp only [listInsert] at h
    split at h <;> cases h <;> simp [insertLeft]
  | lockPrev new prev =>
    obtain ⟨y, -, he⟩ := Option.map_eq_some_iff.1 h
    cases he
    simp [insertLeft]
  | loadCurr new prev =>
    simp only [listInsert] at h
    split at h <;> cases h <;> simp [insertLeft]
  | lockCurr new prev curr =>
    obtain ⟨y, -, he⟩ := Option.map_eq_some_iff.1 h
    cases he
    simp [insertLeft]
  | storeNewNext new prev curr => cases curr <;> cases h <;> simp [insertLeft]
  | _ =>
    cases h
    simp [insertLeft]

theorem worker_left {t : Fin n} {c : Alloc (Node (Thread n))} {sh sh' : Process n} {l l' : Worker}
    {es : List (MainEvent (Thread n))} (hlive : sh.exited t = false)
    (h : insertListFromTo t c sh l = some (sh', l', es)) :
    (∀ u, u ≠ t → sh'.exited u = sh.exited u) ∧
      workerLeft (sh'.exited t, .worker l') < workerLeft (sh.exited t, .worker l) := by
  unfold insertListFromTo at h
  split at h
  · rename_i q hq
    obtain ⟨⟨x, r, es'⟩, hr, he⟩ := Option.map_eq_some_iff.1 h
    cases he
    obtain ⟨h1, h2⟩ := insert_left hr
    refine ⟨fun _ _ => rfl, ?_⟩
    cases r with
    | some r =>
      have h3 := h1 r rfl
      simp only [hlive, workerLeft, hq]
      omega
    | none =>
      simp only [hlive, workerLeft, hq]
      omega
  · rename_i hq
    split_ifs at h with hi
    · cases h
      refine ⟨fun _ _ => rfl, ?_⟩
      simp only [hlive, workerLeft, hq, insertLeft]
      omega
    · cases h
      refine ⟨fun u hu => Function.update_of_ne hu _ _, ?_⟩
      simp [hlive, workerLeft, hq]

/-- `main` after the last join, on a list of at most `10 * n` values -/
theorem main_after_left {c : Alloc (Node (Thread n))} {sh sh' : Process n} {p p' : MainPoint}
    {es : List (MainEvent (Thread n))} {x₀ : State (Thread n)} {A fs : List Addr} {vs ps : List ℤ}
    (hC : Complete x₀ A vs) (hlen : vs.length ≤ 10 * n) (hat : At x₀ sh.list A vs ps fs none p)
    (h : main c sh p = some (sh', p', es)) :
    mainLeft n (ps ++ printed es).length (fs ++ freed es).length p' < mainLeft n ps.length fs.length p := by
  have hA : A.length = vs.length + 1 := by simpa using congrArg List.length hC.vals
  -- a node that is still to print, or to free
  have hprint : ∀ {L rest : List Addr} {b : Addr}, A = L ++ b :: rest →
      L.map (fun a => (x₀.node a).val) = (x₀.node x₀.head).val :: ps → ps.length < 10 * n := by
    intro L rest b hL hps
    have h1 := congrArg List.length hL
    have h2 := congrArg List.length hps
    simp only [List.length_append, List.length_cons, List.length_map] at h1 h2
    omega
  have hfree : ∀ {rest : List Addr} {b : Addr}, A = fs ++ b :: rest → fs.length < 10 * n + 1 := by
    intro rest b hL
    have h1 := congrArg List.length hL
    simp only [List.length_append, List.length_cons] at h1
    omega
  cases p with
  | create i => cases hat
  | join i => cases hat
  | returned => cases h
  | newline =>
    cases h
    simp [mainLeft]
  | print p =>
    obtain ⟨⟨x, q, es'⟩, hq, he⟩ := Option.map_eq_some_iff.1 h
    cases he
    cases p with
    | loadHead =>
      cases hq
      simp [mainLeft]
    | loadFirst head =>
      cases hq
      cases (sh.list.node head).next <;> simp only [Option.map_none, Option.map_some, mainLeft] <;> omega
    | lock curr =>
      obtain ⟨y, -, he⟩ := Option.map_eq_some_iff.1 hq
      cases he
      simp [mainLeft, printed]
    | printVal curr =>
      obtain ⟨-, -, L, rest, hL, hps⟩ := hat
      cases hq
      have h1 := hprint hL hps
      have h2 : (printed [MainEvent.list (.printed (none : Thread n) (sh.list.node curr).val)]).length = 1 := rfl
      simp only [List.map_cons, List.map_nil, List.length_append, h2, mainLeft]
      omega
    | loadNext curr =>
      cases hq
      simp [mainLeft, printed]
    | unlock temp curr =>
      cases hq
      cases curr <;> simp only [Option.map_none, Option.map_some, mainLeft, List.map_nil, List.append_nil, printed,
        List.filterMap_nil] <;> omega
  | free p =>
    cases h
    cases p with
    | loadHead =>
      simp only [listFree, mainLeft]
      omega
    | loadNext curr =>
      obtain ⟨-, -, -, rest, hL⟩ := hat
      have h1 := hfree hL
      simp only [listFree, mainLeft, freed, List.filterMap_nil, List.append_nil]
      omega
    | destroy temp curr =>
      obtain ⟨-, -, -, rest, hL, -⟩ := hat
      have h1 := hfree hL
      simp only [listFree, mainLeft, freed, List.filterMap_nil, List.append_nil]
      omega
    | free temp curr =>
      obtain ⟨-, -, -, rest, hL, -⟩ := hat
      have h1 := hfree hL
      have h2 : (freed [MainEvent.freed (T := Thread n) temp]).length = 1 := rfl
      cases curr <;> simp only [listFree, mainLeft, Option.map_none, Option.map_some, List.length_append, h2] <;> omega

theorem main_create_join_left {c : Alloc (Node (Thread n))} {sh sh' : Process n} {p p' : MainPoint}
    {es : List (MainEvent (Thread n))} {ps fs : ℕ} (hp : (∃ i, p = .create i) ∨ ∃ i, p = .join i)
    (h : main c sh p = some (sh', p', es)) : mainLeft n ps fs p' < mainLeft n ps fs p := by
  rcases hp with ⟨i, rfl⟩ | ⟨i, rfl⟩
  · simp only [main] at h
    split_ifs at h <;> cases h <;> simp only [mainLeft] <;> omega
  · simp only [main] at h
    split_ifs at h <;> cases h <;> simp only [mainLeft] <;> omega

section Left

variable {cell : Addr → Node (Thread n)} {a : Addr} {as : List (Thread n × Alloc (Node (Thread n)))}
  {tr : List (MainEvent (Thread n))} {s : St (Thread n) (Process n) Loc} {u : LockCoupling.Global (Thread n)}
  {p p' : MainPoint}

/-- every step of the process leaves fewer -/
theorem left_step (h : Reached cell a tr s p u) {t : Thread n} {c : Alloc (Node (Thread n))} {sh : Process n}
    {l : Loc} {es : List (MainEvent (Thread n))} (hs : program t c s.sh (s.loc t) = some (sh, l, es))
    (hp' : (s.move t sh l).loc none = .main p') : left (tr ++ es) (s.move t sh l) p' < left tr s p := by
  unfold left
  rw [printed_append, freed_append]
  cases t with
  | none =>
    rw [h.main] at hs
    obtain ⟨⟨sh', p'', es'⟩, hm, he⟩ := Option.map_eq_some_iff.1 hs
    cases he
    obtain rfl : p'' = p' := by simpa using hp'
    have hloc : ∀ t, (s.move none sh' (.main p'')).loc (some t) = s.loc (some t) := fun t => by simp
    simp only [hloc, St.move_sh]
    rcases h.phase with ⟨hp, -, -, -⟩ | ⟨hall, A, hC, hat⟩
    · obtain ⟨-, h2, rfl, -⟩ := main_create_join hp hm
      rw [h2]
      exact Nat.add_lt_add_left (by simpa [printed, freed] using main_create_join_left hp hm) _
    · obtain ⟨h1, -, -⟩ := main_after hC hat hm
      rw [h1]
      exact Nat.add_lt_add_left (main_after_left hC (h.allDone hall).length_le hat hm) _
  | some t =>
    obtain rfl : p = p' := by
      have h1 : s.loc none = .main p' := by simpa using hp'
      rw [h.main] at h1
      cases h1
      rfl
    obtain ⟨l₀, hl₀, -⟩ := h.threads.loc t
    simp only [program, hl₀] at hs
    split_ifs at hs with hc
    obtain ⟨⟨sh', l', es'⟩, hm, he⟩ := Option.map_eq_some_iff.1 hs
    cases he
    have hlive : s.sh.exited t = false := by simp_all
    obtain ⟨-, h2, h3, -⟩ := thread_step hm
    obtain ⟨hother, hless⟩ := worker_left hlive hm
    rw [h2, h3, List.append_nil, List.append_nil]
    have hupd : (fun v : Fin n => ((s.move (some t) sh' (.worker l')).sh.exited v,
        (s.move (some t) sh' (.worker l')).loc (some v))) =
        Function.update (fun v : Fin n => (s.sh.exited v, s.loc (some v))) t (sh'.exited t, .worker l') := by
      funext v
      by_cases hv : v = t
      · subst hv
        simp
      · simp [hv, hother v hv]
    have hsum := total_update workerLeft (fun v : Fin n => (s.sh.exited v, s.loc (some v))) t
      (sh'.exited t, .worker l')
    rw [hupd]
    rw [hl₀] at hsum
    omega

theorem run_left (h : Run program (programStart n cell a) as tr s) :
    ∃ p u, Reached cell a tr s p u ∧ as.length + left tr s p ≤ 203 * n + 10 := by
  induction h with
  | nil =>
    obtain ⟨p, u, hr⟩ := run_reached (.nil : Run program (programStart n cell a) [] [] _)
    refine ⟨p, u, hr, ?_⟩
    obtain rfl : .create 0 = p := by
      have hmain := hr.main
      cases hmain
      rfl
    have hworker : ∀ t : Fin n,
        workerLeft ((programStart n cell a).sh.exited t, (programStart n cell a).loc (some t)) = 131 := by
      intro t
      simp only [programStart, workerLeft, rangeOf]
      omega
    simp only [left, total, hworker, mainLeft, Finset.sum_const, Finset.card_univ, Fintype.card_fin, smul_eq_mul,
      List.length_nil]
    omega
  | @snoc as tr s h t c sh l es hs ih =>
    obtain ⟨p, u, hr, hle⟩ := ih
    obtain ⟨p', u', hr'⟩ := reached_step hr hs
    have hless := left_step hr hs hr'.main
    refine ⟨p', u', hr', ?_⟩
    rw [List.length_append, List.length_singleton]
    omega

/-- some thread can go on until `main` has returned -/
theorem Reached.canStep (h : Reached cell a tr s p u) (hp : p ≠ .returned) : ∃ t, CanStep program s t := by
  have hmain : ∀ c, LockCouplingMain.main c s.sh p ≠ none → ∃ t, CanStep program s t := by
    intro c hne
    refine ⟨none, c, ?_⟩
    simp only [program, h.main, Option.isSome_map]
    exact Option.isSome_iff_ne_none.2 hne
  have hthread : ∀ (t : Fin n) l c, (∀ i, p ≠ .create i) → s.sh.exited t = false → s.loc (some t) = .worker l →
      insertListFromTo t c s.sh l ≠ none → ∃ t, CanStep program s t := by
    intro t l c hcr hlive hl hne
    have hc : s.sh.created t = true := h.created t (by cases p <;> first | trivial | exact absurd rfl (hcr _))
    refine ⟨some t, c, ?_⟩
    simp only [program, hl, hc, hlive, Bool.not_false, Bool.and_self, if_true, Option.isSome_map]
    exact Option.isSome_iff_ne_none.2 hne
  let c₀ : Alloc (Node (Thread n)) := ⟨none, ⟨none, 0, none⟩⟩
  cases p with
  | create i =>
    refine hmain c₀ ?_
    simp only [LockCouplingMain.main]
    split_ifs <;> exact Option.some_ne_none _
  | join i =>
    by_cases hi : i < n
    · by_cases he : s.sh.exited ⟨i, hi⟩ = true
      · exact hmain c₀ (by simp [LockCouplingMain.main, hi, he])
      · -- the thread that `main` waits for is in its loop, or in an insert
        have hlive := Bool.eq_false_iff.2 he
        obtain ⟨l, hl, hu⟩ := h.threads.loc ⟨i, hi⟩
        cases hq : l.insert with
        | none =>
          refine hthread _ l c₀ (by simp) hlive hl ?_
          simp only [insertListFromTo, hq]
          split_ifs <;> exact Option.some_ne_none _
        | some q =>
          obtain ⟨as, hrun⟩ := h.run
          obtain ⟨g, hinv⟩ := run_inv hrun
          have hr : running u (some ⟨i, hi⟩) = some (.insert l.i q) := by
            simp [running, hu, Worker.toLocal, hq]
          obtain ⟨v, r, c, hv, hstep⟩ := hinv.progress hr
          cases v with
          | none =>
            rw [show running u none = none by simp [running, h.threads.main]] at hv
            cases hv
          | some v =>
            obtain ⟨l', hl', hu'⟩ := h.threads.loc v
            have hlive' : s.sh.exited v = false := by
              refine Bool.eq_false_iff.2 fun hx => ?_
              rw [show running u (some v) = none by simp [running, h.threads.exited v hx]] at hv
              cases hv
            refine hthread v l' c (by simp) hlive' hl' ?_
            cases hq' : l'.insert with
            | none =>
              rw [show running u (some v) = none by simp [running, hu', Worker.toLocal, hq']] at hv
              cases hv
            | some q' =>
              rw [show running u (some v) = some (.insert l'.i q') by simp [running, hu', Worker.toLocal, hq']] at hv
              obtain rfl := Option.some.inj hv
              have hlist : s.sh.list = u.sh := by
                rcases h.phase with ⟨-, h1, -⟩ | ⟨hall, -⟩
                · exact h1
                · have hx := h.joined v (hall v)
                  rw [hlive'] at hx
                  cases hx
              rw [← hlist] at hstep
              simpa [insertListFromTo, hq', runStep] using hstep
    · exact hmain c₀ (by simp [LockCouplingMain.main, hi])
  | print q =>
    rcases h.phase with ⟨⟨i, hq⟩ | ⟨i, hq⟩, -⟩ | ⟨-, A, hC, hat⟩
    · cases hq
    · cases hq
    · refine hmain c₀ ?_
      cases q with
      | lock curr =>
        obtain ⟨hx, -, L, rest, hA, -⟩ := hat
        have hfree : (s.sh.list.node curr).mutex = none := by
          rw [hx]
          exact hC.mutex curr (by simp [hA])
        simp [LockCouplingMain.main, listPrint, lock_eq_some.2 ⟨hfree, rfl⟩]
      | _ => exact Option.some_ne_none _
  | newline => exact hmain c₀ (Option.some_ne_none _)
  | free q => exact hmain c₀ (Option.some_ne_none _)
  | returned => exact absurd rfl hp

/-- **Termination.** Whatever the scheduler and the allocator do, a run of the program with `n` threads has at most
`203 * n + 10` steps, and where no thread can take a step `main` has returned. -/
theorem main_total (h : Run program (programStart n cell a) as tr s) :
    as.length ≤ 203 * n + 10 ∧ ((∀ t, ¬ CanStep program s t) → s.loc none = .main .returned) := by
  obtain ⟨p, u, hr, hle⟩ := run_left h
  refine ⟨by omega, fun hno => ?_⟩
  by_contra hne
  obtain ⟨t, ht⟩ := hr.canStep (p := p) fun hp => hne (hp ▸ hr.main)
  exact hno t ht

theorem main_total_two :
    ∃ as tr s, Run program (programStart 2 (fun _ => ⟨none, 0, none⟩) 0) as tr s ∧ as.length ≤ 416 ∧
      ((∀ t, ¬ CanStep program s t) → s.loc none = .main .returned) := by
  obtain ⟨s, tr, h, -⟩ := schedule_run
  obtain ⟨hlen, hend⟩ := main_total h
  exact ⟨_, tr, s, h, by omega, hend⟩

end Left

end OsPractice.LockCouplingMain
