/-
The queue lock (`sema/ns_mutex.c`). Every caller of `ns_mutex_acquire` appends a node with a semaphore of its own to a
queue and waits on that semaphore; `ns_mutex_release` posts the semaphore of the first node of the queue and frees the
node. `node_init` gives the semaphore the value 1, so no caller has to be let in.

Each `sem_wait`, `sem_post`, allocator call and access to a field of the queue or of a node is one step.
`lock_queue_init` and `lock_queue_enqueue` do not test what `malloc` returns; a NULL is dereferenced, so it has no
further step here.

Results:
- `enqueue_alone`: whenever the queue's own lock is free, a call of `ns_mutex_acquire` can run through to its return;
- `overlap`: two threads that both call can therefore hold the lock together;
- `exclusion_iff`: no run has two holders exactly when at most one thread ever calls.
-/
import OsPractice.Core.LockClient
import OsPractice.Core.Monitor
import OsPractice.Core.Heap

namespace OsPractice.NsMutex

open Interleave LockClient Semaphore Heap

structure Node where
  sem : ℕ
  next : Option Addr
  deriving DecidableEq, Repr

structure LockQueue where
  glock : ℕ
  head : Addr
  tail : Addr
  deriving DecidableEq, Repr

structure NsMutexT where
  glock : ℕ
  lockQueue : LockQueue
  deriving DecidableEq, Repr

/-- the mutex and the memory its nodes live in -/
structure State where
  mutex : NsMutexT
  mem : Memory Node

def State.queue (x : State) : LockQueue := x.mutex.lockQueue

def State.setQueue (x : State) (q : LockQueue) : State := { x with mutex := { x.mutex with lockQueue := q } }

/-- a write to the node at `a` -/
def State.store (x : State) (a : Addr) (f : Node → Node) : State := { x with mem := modify x.mem a f }

/-! ## The code -/

/-- points of `lock_queue_enqueue`; `n` is `new_node` -/
inductive EnqueuePc where
  | malloc
  | initSem (n : Addr)
  | initNext (n : Addr)
  | waitGlock (n : Addr)
  | loadTail (n : Addr)
  | storeTailNext (n tail : Addr)
  | storeTail (n : Addr)
  | postGlock (n : Addr)
  | waitSem (n : Addr)
  deriving DecidableEq, Repr

def lockQueueEnqueue (c : Alloc Node) (x : State) : EnqueuePc → Option (State × Option EnqueuePc)
  | .malloc =>
    match Heap.malloc c x.mem with
    | some (mem, some n) => some ({ x with mem := mem }, some (.initSem n))
    | _ => none
  -- node_init
  | .initSem n => some (x.store n fun node => { node with sem := 1 }, some (.initNext n))
  | .initNext n => some (x.store n fun node => { node with next := none }, some (.waitGlock n))
  | .waitGlock n => (semWait x.queue.glock).map fun v => (x.setQueue { x.queue with glock := v }, some (.loadTail n))
  | .loadTail n => some (x, some (.storeTailNext n x.queue.tail))
  | .storeTailNext n tail => some (x.store tail fun node => { node with next := some n }, some (.storeTail n))
  | .storeTail n => some (x.setQueue { x.queue with tail := n }, some (.postGlock n))
  | .postGlock n => some (x.setQueue { x.queue with glock := semPost x.queue.glock }, some (.waitSem n))
  | .waitSem n => (semWait (x.mem.cell n).sem).map fun v => (x.store n fun node => { node with sem := v }, none)

/-- points of `lock_queue_dequeue` -/
inductive DequeuePc where
  | waitGlock
  | loadHead
  | testNext (head : Addr)
  | loadHeadCurr
  | loadCurr (head : Addr)
  | loadNext (curr : Addr)
  | loadHeadStore (curr : Addr) (next : Option Addr)
  | storeHeadNext (curr : Addr) (next : Option Addr) (head : Addr)
  | postSem (curr : Addr)
  | semDestroy (curr : Addr)
  | free (curr : Addr)
  | postGlock
  deriving DecidableEq, Repr

def lockQueueDequeue (c : Alloc Node) (x : State) : DequeuePc → Option (State × Option DequeuePc)
  | .waitGlock => (semWait x.queue.glock).map fun v => (x.setQueue { x.queue with glock := v }, some .loadHead)
  | .loadHead => some (x, some (.testNext x.queue.head))
  | .testNext head =>
    match (x.mem.cell head).next with
    | none => some (x, some .postGlock) -- "queue is empty"
    | some _ => some (x, some .loadHeadCurr)
  | .loadHeadCurr => some (x, some (.loadCurr x.queue.head))
  | .loadCurr head => (x.mem.cell head).next.map fun curr => (x, some (.loadNext curr))
  | .loadNext curr => some (x, some (.loadHeadStore curr (x.mem.cell curr).next))
  | .loadHeadStore curr next => some (x, some (.storeHeadNext curr next x.queue.head))
  | .storeHeadNext curr next head => some (x.store head fun node => { node with next := next }, some (.postSem curr))
  | .postSem curr => some (x.store curr fun node => { node with sem := semPost node.sem }, some (.semDestroy curr))
  -- node_free; sem_destroy leaves the value as it is
  | .semDestroy curr => some (x, some (.free curr))
  | .free curr => some ({ x with mem := Heap.free c x.mem curr }, some .postGlock)
  | .postGlock => some (x.setQueue { x.queue with glock := semPost x.queue.glock }, none)

/-- `a` is the address that `malloc` returns -/
def lockQueueInit (mem : Memory Node) (a : Addr) : LockQueue × Memory Node :=
  (⟨1, a, a⟩, modify (alloc mem a) a fun node => { node with next := none })

/-- `cell` is what the memory contains before -/
def nsMutexInit (cell : Addr → Node) (a : Addr) : State :=
  ⟨⟨1, (lockQueueInit (empty cell) a).1⟩, (lockQueueInit (empty cell) a).2⟩

/-- the return as the end of the call -/
def returns {P : Type} (r : State × Option P) : State × (P ⊕ Unit) :=
  (r.1, match r.2 with
    | some p => .inl p
    | none => .inr ())

/-- `ns_mutex_acquire` and `ns_mutex_release` are the two queue functions -/
def nsMutex (cell : Addr → Node) (a : Addr) : Impl Unit (Alloc Node) State EnqueuePc DequeuePc where
  init := nsMutexInit cell a
  acquire _ := .malloc
  release _ := .waitGlock
  acquireCode c x p := (lockQueueEnqueue c x p).map returns
  releaseCode c x p := (lockQueueDequeue c x p).map returns

abbrev Global (T : Type) := St T (Shared State Unit) (Loc Unit EnqueuePc DequeuePc (List Unit))

/-- the system of threads that repeat acquire and release, thread `t` for `calls t` times -/
def pairs (T : Type) (cell : Addr → Node) (a : Addr) :
    Prog T (Alloc Node) (Shared State Unit) (Loc Unit EnqueuePc DequeuePc (List Unit)) (Event T Unit Empty) :=
  prog (nsMutex cell a) (callList Unit)

variable {T : Type}

def startPairs (cell : Addr → Node) (a : Addr) (calls : T → ℕ) : Global T :=
  start (nsMutex cell a) () fun t => List.replicate (calls t) ()

/-! ## A call that nothing holds up -/

theorem acquire_more {cell : Addr → Node} {a : Addr} {c : Alloc Node} {x x' x'' : State} {p p' : EnqueuePc}
    (h : lockQueueEnqueue c x p = some (x', some p')) (hs : Solo (nsMutex cell a).acquireCode x' p' x'' (.inr ())) :
    Solo (nsMutex cell a).acquireCode x p x'' (.inr ()) :=
  .more (c := c) (by simp [nsMutex, h, returns]) hs

theorem acquire_return {cell : Addr → Node} {a : Addr} {c : Alloc Node} {x x' : State} {p : EnqueuePc}
    (h : lockQueueEnqueue c x p = some (x', none)) : Solo (nsMutex cell a).acquireCode x p x' (.inr ()) :=
  .one (c := c) (by simp [nsMutex, h, returns])

/-- the state after a whole append of the new node `n` -/
def State.appendNode (x : State) (n : Addr) : State :=
  let x₁ : State := { x with mem := alloc x.mem n }
  let x₂ := (x₁.store n fun node => { node with sem := 1 }).store n fun node => { node with next := none }
  let x₃ := (x₂.setQueue { x.queue with glock := 0 }).store x.queue.tail fun node => { node with next := some n }
  x₃.setQueue { x.queue with glock := 1, tail := n }

theorem appendNode_sem (x : State) (n : Addr) : ((x.appendNode n).mem.cell n).sem = 1 := by
  by_cases h : n = x.queue.tail
  · simp [State.appendNode, State.setQueue, State.store, ← h]
  · simp [State.appendNode, State.setQueue, State.store, h]

/-- the semaphore of a new node is 1, so its owner passes it at once -/
theorem enqueue_alone (cell : Addr → Node) (a : Addr) {n : Addr} {x : State} (hg : x.queue.glock = 1)
    (hn : x.mem.live n = false) :
    ∃ x', Solo (nsMutex cell a).acquireCode x .malloc x' (.inr ()) ∧ x'.queue.glock = 1 ∧
      x'.mem.live = Function.update x.mem.live n true := by
  obtain ⟨⟨g, ⟨gl, hd, tl⟩⟩, mem⟩ := x
  obtain rfl : gl = 1 := hg
  let c : Alloc Node := ⟨some n, ⟨0, none⟩⟩
  let x : State := ⟨⟨g, ⟨1, hd, tl⟩⟩, mem⟩
  refine ⟨(x.appendNode n).store n fun node => { node with sem := 0 }, ?_, rfl, rfl⟩
  have hm : lockQueueEnqueue c x .malloc = some ({ x with mem := alloc mem n }, some (.initSem n)) := by
    have : mem.live n = false := hn
    simp [lockQueueEnqueue, malloc, c, this, x]
  have hw : lockQueueEnqueue c (x.appendNode n) (.waitSem n) =
      some ((x.appendNode n).store n fun node => { node with sem := 0 }, none) := by
    simp [lockQueueEnqueue, appendNode_sem, semWait]
  exact acquire_more hm <| acquire_more (c := c) rfl <| acquire_more (c := c) rfl <| acquire_more (c := c) rfl <|
    acquire_more (c := c) rfl <| acquire_more (c := c) rfl <| acquire_more (c := c) rfl <|
    acquire_more (c := c) rfl <| acquire_return hw

/-! ## When exclusion holds -/

/-- a thread that makes no call stays where it is -/
theorem idle [DecidableEq T] {cell : Addr → Node} {a : Addr} {calls : T → ℕ} {as : List (T × Alloc Node)}
    {tr : List (Event T Unit Empty)} {s : Global T} (h : Run (pairs T cell a) (startPairs cell a calls) as tr s) {t : T}
    (ht : calls t = 0) : s.loc t = ⟨.out, []⟩ := by
  refine h.inv (I := fun s => s.loc t = ⟨.out, []⟩) ?_ ?_
  · simp [startPairs, start, ht]
  · intro s u c sh l es hi hs
    have hu : t ≠ u := by
      rintro rfl
      rw [hi] at hs
      exact absurd hs (by simp [pairs, prog, callList])
    rw [St.move_loc, Function.update_of_ne hu]
    exact hi

variable [DecidableEq T]

/-- one thread calls and returns, while the lock's queue is not in use -/
theorem run_acquire (cell : Addr → Node) (a : Addr) {n : Addr} {x : State} (hg : x.queue.glock = 1)
    (hn : x.mem.live n = false) {s : Global T} {t : T} {k : ℕ} (hx : s.sh = ⟨x, ()⟩)
    (ht : s.loc t = ⟨.out, List.replicate (k + 1) ()⟩) :
    ∃ as tr x', Run (pairs T cell a) s as tr (s.move t ⟨x', ()⟩ ⟨.holding (), List.replicate k ()⟩) ∧
      x'.queue.glock = 1 ∧ x'.mem.live = Function.update x.mem.live n true := by
  obtain ⟨x', hs, hx', hl⟩ := enqueue_alone cell a hg hn
  have hcall := run_call (I := nsMutex cell a) (K := callList Unit) ⟨none, ⟨0, none⟩⟩ hx ht rfl
  obtain ⟨as, hr⟩ := hs.run_acquire (callList Unit) (s := s.move t ⟨x, ()⟩ ⟨.acquiring .malloc, List.replicate k ()⟩)
    (t := t) (b := List.replicate k ()) rfl (by simp)
  rw [St.move_move] at hr
  exact ⟨_, _, x', hcall.append hr, hx', hl⟩

/-- **Two holders.** Any two threads that call can hold the lock together. -/
theorem overlap (cell : Addr → Node) (a : Addr) {calls : T → ℕ} {t u : T} (htu : t ≠ u) (ht : 0 < calls t)
    (hu : 0 < calls u) :
    ∃ as tr s, Run (pairs T cell a) (startPairs cell a calls) as tr s ∧ phases s t = .holding () ∧
      phases s u = .holding () := by
  obtain ⟨j, hj⟩ := Nat.exists_eq_add_of_lt ht
  obtain ⟨k, hk⟩ := Nat.exists_eq_add_of_lt hu
  obtain ⟨as, tr, x, h1, hg, hl⟩ := run_acquire cell a (n := a + 1) (x := nsMutexInit cell a)
    (s := startPairs cell a calls) (t := t) (k := j) rfl (by simp [nsMutexInit, lockQueueInit, alloc, empty]) rfl
    (by simp [startPairs, start, hj])
  obtain ⟨bs, tr', x', h2, -, -⟩ := run_acquire cell a (n := a + 2) (x := x) (k := k) hg
    (by simp [hl, nsMutexInit, lockQueueInit, alloc, empty])
    (s := (startPairs cell a calls).move t ⟨x, ()⟩ ⟨.holding (), List.replicate j ()⟩) (t := u) rfl
    (by simp [startPairs, start, hk, htu.symm])
  refine ⟨as ++ bs, tr ++ tr', _, h1.append h2, ?_, ?_⟩
  · simp [phases, htu]
  · simp [phases]

/-- **When the lock excludes.** No run has two threads between the return of acquire and the call of release exactly
when at most one thread calls. -/
theorem exclusion_iff (cell : Addr → Node) (a : Addr) (calls : T → ℕ) :
    (∀ as tr s, Run (pairs T cell a) (startPairs cell a calls) as tr s →
      ∀ t u, phases s t = .holding () → phases s u = .holding () → t = u) ↔
    ∀ t u, 0 < calls t → 0 < calls u → t = u := by
  refine ⟨?_, ?_⟩
  · intro h t u ht hu
    by_contra htu
    obtain ⟨as, tr, s, hr, h1, h2⟩ := overlap cell a htu ht hu
    exact htu (h as tr s hr t u h1 h2)
  · intro h as tr s hr t u ht hu
    have hpos : ∀ v, phases s v = .holding () → 0 < calls v := fun v hv => by
      by_contra hc
      have hidle := idle hr (Nat.le_zero.1 (Nat.not_lt.1 hc))
      simp [phases, hidle] at hv
    exact h t u (hpos t ht) (hpos u hu)

/-- two threads, one call each: the second acquire returns while the first thread holds the lock -/
theorem overlap_two :
    ∃ as tr s, Run (pairs (Fin 2) (fun _ => ⟨0, none⟩) 0) (startPairs (fun _ => ⟨0, none⟩) 0 fun _ => 1) as tr s ∧
      ¬ ∀ t u, phases s t = .holding () → phases s u = .holding () → t = u := by
  obtain ⟨s, tr, h, hs⟩ := exec_any_run (pairs (Fin 2) (fun _ => ⟨0, none⟩) 0)
    (startPairs (fun _ => ⟨0, none⟩) 0 fun _ => 1)
    (List.replicate 10 (0, ⟨some 1, ⟨0, none⟩⟩) ++ List.replicate 10 (1, ⟨some 2, ⟨0, none⟩⟩))
    (fun s _ => phases s 0 = .holding () ∧ phases s 1 = .holding ()) (by decide +kernel)
  exact ⟨_, tr, s, h, fun hno => absurd (hno 0 1 hs.1 hs.2) (by decide)⟩

end OsPractice.NsMutex
