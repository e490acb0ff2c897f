/-
The order in which the queue lock (`sema/ns_mutex.c`) lets its callers in.

The queue is there to let callers in one at a time, in the order in which they appended their nodes (`Fifo`). As every
node's semaphore is 1 from the start, a caller passes its own wait without a release, also before callers whose nodes
come first in the queue.

`watched` is the system of `NsMutex` with one more event: the moment at which `q->tail` is set to a node.

Results:
- `overtaking`: of two threads that call, the second can append after the first and return before it;
- `fifo_iff`: every run admits in order, one caller for each release, exactly when at most one thread ever calls.
-/
import OsPractice.Sema.NsMutex

namespace OsPractice.NsMutex

open Interleave LockClient Semaphore Heap

inductive Output (T : Type) where
  /-- the node of `t` has been appended -/
  | appended (t : T)
  | lock (e : Event T Unit Empty)
  deriving DecidableEq, Repr

variable {T : Type}

/-- what the step from a phase shows: `q->tail = new_node` appends -/
def showsAppend (t : T) : Phase Unit EnqueuePc DequeuePc → List (Output T)
  | .acquiring (.storeTail _) => [.appended t]
  | _ => []

def watched (T : Type) (cell : Addr → Node) (a : Addr) :
    Prog T (Alloc Node) (Shared State Unit) (Loc Unit EnqueuePc DequeuePc (List Unit)) (Output T) := fun t c sh l =>
  (pairs T cell a t c sh l).map fun r => (r.1, r.2.1, showsAppend t l.phase ++ r.2.2.map .lock)

/-- the threads in the order in which they have appended their nodes -/
def appended (tr : List (Output T)) : List T := tr.filterMap fun
  | .appended t => some t
  | _ => none

/-- the threads in the order in which `ns_mutex_acquire` has returned -/
def admitted (tr : List (Output T)) : List T := tr.filterMap fun
  | .lock (.acquired t _) => some t
  | _ => none

/-- the calls of `ns_mutex_release` -/
def releases (tr : List (Output T)) : ℕ := tr.countP fun
  | .lock (.releasing _ _) => true
  | _ => false

/-- the calls of `ns_mutex_release` that have returned -/
def released (tr : List (Output T)) : ℕ := tr.countP fun
  | .lock (.released _ _) => true
  | _ => false

structure Fifo (tr : List (Output T)) (s : Global T) : Prop where
  /-- `ns_mutex_acquire` returns in the order of the appends -/
  order : admitted tr <+: appended tr
  /-- after the first caller, nobody is let in without a release -/
  one : (admitted tr).length ≤ releases tr + 1
  /-- after a release the next caller in the order can pass its wait -/
  next : (admitted tr).length ≤ released tr → ∀ t n, (appended tr)[(admitted tr).length]? = some t →
    phases s t = .acquiring (.waitSem n) → 0 < (s.sh.lock.mem.cell n).sem

theorem appended_append (tr es : List (Output T)) : appended (tr ++ es) = appended tr ++ appended es :=
  List.filterMap_append

theorem admitted_append (tr es : List (Output T)) : admitted (tr ++ es) = admitted tr ++ admitted es :=
  List.filterMap_append

theorem releases_append (tr es : List (Output T)) : releases (tr ++ es) = releases tr + releases es :=
  List.countP_append

theorem released_append (tr es : List (Output T)) : released (tr ++ es) = released tr + released es :=
  List.countP_append

/-! ## Overtaking -/

/-- what a whole append of the node `n` does, from `x` to `x'` -/
structure Append (x : State) (n : Addr) (x' : State) : Prop where
  glock : x'.queue.glock = 1
  head : x'.queue.head = x.queue.head
  tail : x'.queue.tail = n
  live : x'.mem.live = Function.update x.mem.live n true
  sem : (x'.mem.cell n).sem = 1
  next : (x'.mem.cell x.queue.tail).next = some n
  other : ∀ m, m ≠ n → m ≠ x.queue.tail → x'.mem.cell m = x.mem.cell m

/-- a caller appends its node, while the queue is not in use, and comes to the wait on its semaphore -/
theorem append_alone (cell : Addr → Node) (a : Addr) {n : Addr} {x : State} (hg : x.queue.glock = 1)
    (hn : x.mem.live n = false) (t : T) (k : ℕ) :
    ∃ x', Alone (watched T cell a) t ⟨x, ()⟩ ⟨.out, List.replicate (k + 1) ()⟩
        [.lock (.acquiring t ()), .appended t] ⟨x', ()⟩ ⟨.acquiring (.waitSem n), List.replicate k ()⟩ ∧
      Append x n x' := by
  obtain ⟨⟨g, ⟨gl, hd, tl⟩⟩, mem⟩ := x
  obtain rfl : gl = 1 := hg
  let c : Alloc Node := ⟨some n, ⟨0, none⟩⟩
  let x : State := ⟨⟨g, ⟨1, hd, tl⟩⟩, mem⟩
  have hnext : ((x.appendNode n).mem.cell tl).next = some n := by
    simp [State.appendNode, State.setQueue, State.store, State.queue, x]
  have hother : ∀ m, m ≠ n → m ≠ tl → (x.appendNode n).mem.cell m = mem.cell m := by
    intro m hmn hmt
    simp [State.appendNode, State.setQueue, State.store, State.queue, alloc, x, hmn, hmt]
  refine ⟨x.appendNode n, ?_, rfl, rfl, rfl, rfl, appendNode_sem x n, hnext, hother⟩
  have hm : watched T cell a t c ⟨x, ()⟩ ⟨.acquiring .malloc, List.replicate k ()⟩ =
      some (⟨{ x with mem := alloc mem n }, ()⟩, ⟨.acquiring (.initSem n), List.replicate k ()⟩, []) := by
    have hn : mem.live n = false := hn
    simp [watched, pairs, prog, nsMutex, lockQueueEnqueue, malloc, c, hn, x, returns, showsAppend]
  change Alone _ t _ _ ([Output.lock (.acquiring t ())] ++ ([Output.appended t] ++ [])) _ _
  exact Alone.head (c := c) rfl <| Alone.silent hm <| Alone.silent (c := c) rfl <|
    Alone.silent (c := c) rfl <| Alone.silent (c := c) rfl <| Alone.silent (c := c) rfl <|
    Alone.silent (c := c) rfl <| Alone.head (c := c) rfl <| Alone.silent (c := c) rfl <| .refl _ _

/-- the semaphore is 1, so the wait is over at once -/
theorem pass_alone (cell : Addr → Node) (a : Addr) {n : Addr} {x : State} (hn : (x.mem.cell n).sem = 1) (t : T)
    (b : List Unit) :
    Alone (watched T cell a) t ⟨x, ()⟩ ⟨.acquiring (.waitSem n), b⟩ [.lock (.acquired t ())]
      ⟨x.store n fun node => { node with sem := 0 }, ()⟩ ⟨.holding (), b⟩ := by
  refine Alone.single (c := ⟨none, ⟨0, none⟩⟩) ?_
  simp [watched, pairs, prog, nsMutex, lockQueueEnqueue, hn, semWait, returns, showsAppend]

variable [DecidableEq T]

/-- two threads append one after the other, and the second one returns -/
theorem run_appends (cell : Addr → Node) (a : Addr) {calls : T → ℕ} {t u : T} (htu : t ≠ u) (ht : 0 < calls t)
    (hu : 0 < calls u) :
    ∃ as x₁ x₂ j k, Append (nsMutexInit cell a) (a + 1) x₁ ∧ Append x₁ (a + 2) x₂ ∧
      Run (watched T cell a) (startPairs cell a calls) as
        [.lock (.acquiring t ()), .appended t, .lock (.acquiring u ()), .appended u, .lock (.acquired u ())]
        (((startPairs cell a calls).move t ⟨x₁, ()⟩ ⟨.acquiring (.waitSem (a + 1)), List.replicate j ()⟩).move u
          ⟨x₂.store (a + 2) fun node => { node with sem := 0 }, ()⟩ ⟨.holding (), List.replicate k ()⟩) := by
  obtain ⟨j, hj⟩ := Nat.exists_eq_add_of_lt ht
  obtain ⟨k, hk⟩ := Nat.exists_eq_add_of_lt hu
  obtain ⟨x₁, h1, hx₁⟩ := append_alone cell a (n := a + 1) (x := nsMutexInit cell a) rfl
    (by simp [nsMutexInit, lockQueueInit, alloc, empty]) t j
  obtain ⟨x₂, h2, hx₂⟩ := append_alone cell a (n := a + 2) (x := x₁) hx₁.glock
    (by simp [hx₁.live, nsMutexInit, lockQueueInit, alloc, empty]) u k
  have h3 := pass_alone cell a hx₂.sem u (List.replicate k ())
  have hlt : (startPairs cell a calls).loc t = ⟨.out, List.replicate (j + 1) ()⟩ := by simp [startPairs, start, hj]
  have hlu : (startPairs cell a calls).loc u = ⟨.out, List.replicate (k + 1) ()⟩ := by simp [startPairs, start, hk]
  obtain ⟨as, r1⟩ := Alone.run (s := startPairs cell a calls) (by rw [hlt]; exact h1)
  obtain ⟨bs, r2⟩ := Alone.run
    (s := (startPairs cell a calls).move t ⟨x₁, ()⟩ ⟨.acquiring (.waitSem (a + 1)), List.replicate j ()⟩)
    (by rw [St.move_loc, Function.update_of_ne htu.symm, hlu]; exact h2.trans h3)
  exact ⟨as ++ bs, x₁, x₂, j, k, hx₁, hx₂, r1.append r2⟩

/-- **Overtaking.** Any two threads that call can append one after the other and return in the other order. -/
theorem overtaking (cell : Addr → Node) (a : Addr) {calls : T → ℕ} {t u : T} (htu : t ≠ u) (ht : 0 < calls t)
    (hu : 0 < calls u) :
    ∃ as tr s, Run (watched T cell a) (startPairs cell a calls) as tr s ∧ appended tr = [t, u] ∧ admitted tr = [u] := by
  obtain ⟨as, x₁, x₂, j, k, -, -, hrun⟩ := run_appends cell a htu ht hu
  refine ⟨as, _, _, hrun, ?_, ?_⟩
  · rfl
  · rfl

/-! ## One caller -/

/-- a run without the additional event -/
theorem run_pairs {cell : Addr → Node} {a : Addr} {s₀ s : Global T} {as : List (T × Alloc Node)}
    {tr : List (Output T)} (h : Run (watched T cell a) s₀ as tr s) : ∃ tr', Run (pairs T cell a) s₀ as tr' s := by
  induction h with
  | nil => exact ⟨[], .nil⟩
  | snoc _ hs ih =>
    obtain ⟨tr', hr⟩ := ih
    obtain ⟨⟨sh, l, es⟩, hp, he⟩ := Option.map_eq_some_iff.1 hs
    cases he
    exact ⟨tr' ++ es, hr.snoc hp⟩

/-- appended and not yet returned -/
def waiting : Phase Unit EnqueuePc DequeuePc → ℕ
  | .acquiring (.postGlock _) => 1
  | .acquiring (.waitSem _) => 1
  | _ => 0

def inside : Phase Unit EnqueuePc DequeuePc → ℕ
  | .holding _ => 1
  | _ => 0

def leaving : Phase Unit EnqueuePc DequeuePc → ℕ
  | .releasing _ => 1
  | _ => 0

/-- the semaphore of the caller's own node, once it is initialised -/
def SemOne (x : State) : Phase Unit EnqueuePc DequeuePc → Prop
  | .acquiring (.initNext n) => (x.mem.cell n).sem = 1
  | .acquiring (.waitGlock n) => (x.mem.cell n).sem = 1
  | .acquiring (.loadTail n) => (x.mem.cell n).sem = 1
  | .acquiring (.storeTailNext n _) => (x.mem.cell n).sem = 1
  | .acquiring (.storeTail n) => (x.mem.cell n).sem = 1
  | .acquiring (.postGlock n) => (x.mem.cell n).sem = 1
  | .acquiring (.waitSem n) => (x.mem.cell n).sem = 1
  | _ => True

omit [DecidableEq T] in
theorem enqueue_sem {c : Alloc Node} {x x' : State} {p p' : EnqueuePc}
    (h : lockQueueEnqueue c x p = some (x', some p')) (hp : SemOne x (.acquiring p)) : SemOne x' (.acquiring p') := by
  cases p with
  | malloc =>
    simp only [lockQueueEnqueue] at h
    split at h <;> cases h
    trivial
  | initSem n =>
    cases h
    simp [SemOne, State.store]
  | initNext n =>
    cases h
    simpa [SemOne, State.store] using hp
  | waitGlock n =>
    obtain ⟨v, -, he⟩ := wait_step h
    cases he
    exact hp
  | loadTail n => cases h; exact hp
  | storeTailNext n tail =>
    cases h
    by_cases hn : n = tail
    · subst hn
      simpa [SemOne, State.store] using hp
    · simpa [SemOne, State.store, hn] using hp
  | storeTail n => cases h; exact hp
  | postGlock n => cases h; exact hp
  | waitSem n =>
    obtain ⟨v, -, he⟩ := wait_step h
    cases he

/-- what holds while `t` is the only thread that calls -/
structure Single (t : T) (tr : List (Output T)) (s : Global T) : Prop where
  admitted : admitted tr = List.replicate (releases tr + inside (phases s t)) t
  appended : appended tr = List.replicate (releases tr + inside (phases s t) + waiting (phases s t)) t
  released : releases tr = released tr + leaving (phases s t)
  sem : SemOne s.sh.lock (phases s t)

omit [DecidableEq T] in
theorem Single.fifo {t : T} {tr : List (Output T)} {s : Global T} (h : Single t tr s) : Fifo tr s := by
  refine ⟨?_, ?_, ?_⟩
  · rw [h.admitted, h.appended, List.replicate_add _ (waiting _)]
    exact List.prefix_append _ _
  · rw [h.admitted, List.length_replicate]
    cases phases s t <;> simp [inside]
  · intro _ u n hu hw
    rw [h.appended] at hu
    obtain rfl := List.eq_of_mem_replicate (List.mem_of_getElem? hu)
    have hs := h.sem
    rw [hw] at hs
    rw [show (s.sh.lock.mem.cell n).sem = 1 from hs]
    exact Nat.one_pos

/-- a step of `t` from the phase `φ` to the phase of `l` -/
theorem Single.step {t : T} {tr es : List (Output T)} {s : Global T} {sh : Shared State Unit}
    {l : Loc Unit EnqueuePc DequeuePc (List Unit)} {φ : Phase Unit EnqueuePc DequeuePc} {i w : ℕ} (h : Single t tr s)
    (hφ : phases s t = φ) (hadm : NsMutex.admitted es = List.replicate i t)
    (hin : inside φ + i = releases es + inside l.phase) (happ : NsMutex.appended es = List.replicate w t)
    (hwait : waiting φ + w = i + waiting l.phase)
    (hrel : releases es + leaving φ = NsMutex.released es + leaving l.phase)
    (hsem : SemOne sh.lock l.phase) : Single t (tr ++ es) (s.move t sh l) := by
  subst hφ
  have hph : phases (s.move t sh l) t = l.phase := by rw [phases_move, Function.update_self]
  have hr := h.released
  refine ⟨?_, ?_, ?_, ?_⟩
  · have hcount : releases tr + inside (phases s t) + i = releases (tr ++ es) + inside l.phase := by
      rw [releases_append]
      omega
    calc NsMutex.admitted (tr ++ es)
        = List.replicate (releases tr + inside (phases s t)) t ++ List.replicate i t := by
          rw [admitted_append, h.admitted, hadm]
      _ = List.replicate (releases (tr ++ es) + inside l.phase) t := by rw [← List.replicate_add, hcount]
      _ = List.replicate (releases (tr ++ es) + inside (phases (s.move t sh l) t)) t := by rw [hph]
  · rw [appended_append, h.appended, happ, releases_append, hph, ← List.replicate_add]
    congr 1
    omega
  · rw [releases_append, released_append, hph]
    omega
  · rw [hph]
    exact hsem

omit [DecidableEq T] in
theorem acquire_inl {cell : Addr → Node} {a : Addr} {c : Alloc Node} {x x' : State} {p p' : EnqueuePc}
    (h : (nsMutex cell a).acquireCode c x p = some (x', .inl p')) : lockQueueEnqueue c x p = some (x', some p') := by
  obtain ⟨⟨y, q⟩, hq, he⟩ := Option.map_eq_some_iff.1 h
  cases q <;> cases he
  exact hq

omit [DecidableEq T] in
theorem acquire_inr {cell : Addr → Node} {a : Addr} {c : Alloc Node} {x x' : State} {p : EnqueuePc} {m : Unit}
    (h : (nsMutex cell a).acquireCode c x p = some (x', .inr m)) : ∃ n, p = .waitSem n := by
  obtain ⟨⟨y, q⟩, hq, he⟩ := Option.map_eq_some_iff.1 h
  cases q <;> cases he
  cases p with
  | waitSem n => exact ⟨n, rfl⟩
  | malloc =>
    simp only [lockQueueEnqueue] at hq
    split at hq <;> cases hq
  | waitGlock n =>
    obtain ⟨v, -, he⟩ := wait_step hq
    cases he
  | _ => cases hq

omit [DecidableEq T] in
/-- only the append shows and only the append begins the wait -/
theorem enqueue_waiting {c : Alloc Node} {x x' : State} {p p' : EnqueuePc} (t : T)
    (h : lockQueueEnqueue c x p = some (x', some p')) :
    showsAppend t (.acquiring p) = [] ∧ waiting (.acquiring p') = waiting (.acquiring p) ∨
      showsAppend t (.acquiring p) = [.appended t] ∧ waiting (.acquiring p) = 0 ∧ waiting (.acquiring p') = 1 := by
  cases p with
  | malloc =>
    simp only [lockQueueEnqueue] at h
    split at h <;> cases h
    exact .inl ⟨rfl, rfl⟩
  | storeTail n =>
    cases h
    exact .inr ⟨rfl, rfl, rfl⟩
  | waitGlock n =>
    obtain ⟨v, -, he⟩ := wait_step h
    cases he
    exact .inl ⟨rfl, rfl⟩
  | waitSem n =>
    obtain ⟨v, -, he⟩ := wait_step h
    cases he
  | _ =>
    cases h
    exact .inl ⟨rfl, rfl⟩

theorem single_step {cell : Addr → Node} {a : Addr} {t : T} {tr es : List (Output T)} {s : Global T} {c : Alloc Node}
    {sh : Shared State Unit} {l : Loc Unit EnqueuePc DequeuePc (List Unit)} (h : Single t tr s)
    (hs : watched T cell a t c s.sh (s.loc t) = some (sh, l, es)) : Single t (tr ++ es) (s.move t sh l) := by
  obtain ⟨⟨sh, l, es⟩, hp, he⟩ := Option.map_eq_some_iff.1 hs
  cases he
  have hstep := prog_step hp
  have hsem := h.sem
  have hφ : phases s t = (s.loc t).phase := rfl
  rw [hφ] at hsem
  generalize s.loc t = l₀ at hstep hφ hsem
  generalize s.sh = sh₀ at hstep hsem
  cases hstep with
  | call hn => exact h.step (i := 0) (w := 0) hφ rfl rfl rfl rfl rfl trivial
  | acquiring hc =>
    have hc := acquire_inl hc
    have hsem' := enqueue_sem hc hsem
    rcases enqueue_waiting t hc with ⟨h1, h2⟩ | ⟨h1, h2, h3⟩
    · have hw := h2.symm.trans (Nat.zero_add _).symm
      exact h.step (i := 0) (w := 0) hφ (by rw [h1]; rfl) (by rw [h1]; rfl) (by rw [h1]; rfl) hw (by rw [h1]; rfl) hsem'
    · have hw := (congrArg (· + 1) h2).trans (h3.symm.trans (Nat.zero_add _).symm)
      exact h.step (i := 0) (w := 1) hφ (by rw [h1]; rfl) (by rw [h1]; rfl) (by rw [h1]; rfl) hw (by rw [h1]; rfl) hsem'
  | acquired hc =>
    obtain ⟨n, rfl⟩ := acquire_inr hc
    exact h.step (i := 1) (w := 0) hφ rfl rfl rfl rfl rfl trivial
  | body hb => cases hb
  | release => exact h.step (i := 0) (w := 0) hφ rfl rfl rfl rfl rfl trivial
  | releasing => exact h.step (i := 0) (w := 0) hφ rfl rfl rfl rfl rfl trivial
  | released => exact h.step (i := 0) (w := 0) hφ rfl rfl rfl rfl rfl trivial

/-- a run in which nobody but `t` calls -/
theorem run_single {cell : Addr → Node} {a : Addr} {calls : T → ℕ} {as : List (T × Alloc Node)} {tr : List (Output T)}
    {s : Global T} (h : Run (watched T cell a) (startPairs cell a calls) as tr s) {t : T}
    (ht : ∀ u, u ≠ t → calls u = 0) : Single t tr s := by
  induction h with
  | nil => exact ⟨rfl, rfl, rfl, trivial⟩
  | @snoc as tr s h u c sh l es hs ih =>
    by_cases hu : u = t
    · subst hu
      exact single_step ih hs
    · -- a thread without calls makes no step
      obtain ⟨tr', hr⟩ := run_pairs h
      rw [idle hr (ht u hu)] at hs
      exact absurd hs (by simp [watched, pairs, prog, callList])

/-! ## When admission is in order -/

/-- **When the lock is fair.** Every run admits the callers in the order of their appends, one for each release, exactly
when at most one thread calls. -/
theorem fifo_iff (cell : Addr → Node) (a : Addr) (calls : T → ℕ) :
    (∀ as tr s, Run (watched T cell a) (startPairs cell a calls) as tr s → Fifo tr s) ↔
    ∀ t u, 0 < calls t → 0 < calls u → t = u := by
  refine ⟨?_, ?_⟩
  · intro h t u ht hu
    by_contra htu
    obtain ⟨as, tr, s, hr, happ, hadm⟩ := overtaking cell a htu ht hu
    have horder := (h as tr s hr).order
    rw [happ, hadm, List.cons_prefix_cons] at horder
    exact htu horder.1.symm
  · intro h as tr s hr
    by_cases hc : ∃ t, 0 < calls t
    · obtain ⟨t, ht⟩ := hc
      refine (run_single hr (t := t) ?_).fifo
      intro u hu
      by_contra h0
      exact hu (h u t (Nat.pos_of_ne_zero h0) ht)
    · -- nobody calls: nothing happens
      push Not at hc
      cases hr with
      | nil => exact ⟨List.nil_prefix, Nat.zero_le _, fun _ t n hn => by cases hn⟩
      | snoc hr hs =>
        obtain ⟨tr', hr'⟩ := run_pairs hr
        rw [idle hr' (Nat.le_zero.1 (hc _))] at hs
        exact absurd hs (by simp [watched, pairs, prog, callList])

/-- thread 0 appends first, thread 1 returns first -/
theorem overtaken_two :
    ∃ as tr s, Run (watched (Fin 2) (fun _ => ⟨0, none⟩) 0) (startPairs (fun _ => ⟨0, none⟩) 0 fun _ => 1) as tr s ∧
      appended tr = [0, 1] ∧ admitted tr = [1] ∧ ¬ Fifo tr s := by
  obtain ⟨s, tr, h, happ, hadm⟩ := exec_any_run (watched (Fin 2) (fun _ => ⟨0, none⟩) 0)
    (startPairs (fun _ => ⟨0, none⟩) 0 fun _ => 1)
    (List.replicate 9 (0, ⟨some 1, ⟨0, none⟩⟩) ++ List.replicate 10 (1, ⟨some 2, ⟨0, none⟩⟩))
    (fun _ tr => appended tr = [0, 1] ∧ admitted tr = [1]) (by decide +kernel)
  refine ⟨_, tr, s, h, happ, hadm, ?_⟩
  intro hno
  have horder := hno.order
  rw [happ, hadm] at horder
  exact absurd horder (by decide)

end OsPractice.NsMutex
