/-
The list behind the queue lock (`sema/ns_mutex.c`), used by one thread: calls of `lock_queue_enqueue`, up to the wait
on the node's own semaphore, and of `lock_queue_dequeue`, one after another.

What the list is there for is a queue of nodes (`pending`): an append puts a node at its end, a dequeue takes the first
node out. `lock_queue_dequeue` leaves `q->tail` alone, so after the last node is out `q->tail` points to that node,
which is freed.

Results:
- `enqueue_step`, `dequeue_step`: what holds of the list at each point of the two functions;
- `sound_run`: while no dequeue takes the only node out, the list represents the queue after every call and no step
  accesses a freed node;
- `taken`: the call that takes the only node out leaves `q->tail` at the freed node;
- `queue_iff`: the list represents the queue in every run exactly when no dequeue takes the only node out.
-/
import OsPractice.Sema.NsMutex

namespace OsPractice.NsMutexQueue

open Interleave Semaphore Heap NsMutex

/-! ## One thread -/

inductive Op where
  | enqueue
  | dequeue
  deriving DecidableEq, Repr

inductive Call where
  | enqueue (p : EnqueuePc)
  | dequeue (p : DequeuePc)
  deriving DecidableEq, Repr

/-- the call the thread is in, and the calls it makes next -/
structure Loc where
  call : Option Call
  todo : List Op
  deriving DecidableEq, Repr

inductive Event where
  /-- `q->tail` has been set to the new node -/
  | appended (n : Addr)
  /-- `lock_queue_dequeue` has returned -/
  | dequeued
  /-- the node at `n` is read, written or freed; `live` tells whether it is allocated -/
  | accessed (n : Addr) (live : Bool)
  deriving DecidableEq, Repr

def access (x : State) (n : Addr) : List Event := [.accessed n (x.mem.live n)]

def enqueueEvents (x : State) : EnqueuePc → List Event
  | .initSem n => access x n
  | .initNext n => access x n
  | .storeTailNext _ tail => access x tail
  | .storeTail n => [.appended n]
  | _ => []

def dequeueEvents (x : State) : DequeuePc → List Event
  | .testNext head => access x head
  | .loadCurr head => access x head
  | .loadNext curr => access x curr
  | .storeHeadNext _ _ head => access x head
  | .postSem curr => access x curr
  | .semDestroy curr => access x curr
  | .free curr => access x curr
  | .postGlock => [.dequeued]
  | _ => []

/-- the first point of a function -/
def enter : Op → Call
  | .enqueue => .enqueue .malloc
  | .dequeue => .dequeue .waitGlock

def sequential : Prog Unit (Alloc Node) State Loc Event := fun _ c x l =>
  match l.call with
  | none =>
    match l.todo with
    | [] => none
    | op :: ops => some (x, ⟨some (enter op), ops⟩, [])
  -- the append part ends before the wait
  | some (.enqueue (.waitSem _)) => some (x, ⟨none, l.todo⟩, [])
  | some (.enqueue p) =>
    (lockQueueEnqueue c x p).map fun r => (r.1, ⟨r.2.map .enqueue, l.todo⟩, enqueueEvents x p)
  | some (.dequeue p) =>
    (lockQueueDequeue c x p).map fun r => (r.1, ⟨r.2.map .dequeue, l.todo⟩, dequeueEvents x p)

/-- after `lock_queue_init`, before the calls `ops`; `cell` and `a` as for `nsMutexInit` -/
def startOps (cell : Addr → Node) (a : Addr) (ops : List Op) : St Unit State Loc :=
  ⟨nsMutexInit cell a, fun _ => ⟨none, ops⟩⟩

/-! ## The queue -/

def pendingStep (L : List Addr) : Event → List Addr
  | .appended n => L ++ [n]
  | .dequeued => L.tail
  | .accessed _ _ => L

/-- the nodes that are appended and not yet dequeued, in the order of the appends -/
def pending (tr : List Event) : List Addr := tr.foldl pendingStep []

def nextOf (x : State) (n : Addr) : Option Addr := (x.mem.cell n).next

/-- the list with the dummy node `a` stands for the queue `L` -/
structure Represents (a : Addr) (L : List Addr) (x : State) : Prop where
  head : x.queue.head = a
  chain : Chain (nextOf x) (nextOf x a) L
  tail : x.queue.tail = L.getLastD a

/-- no dequeue in `ops` takes the only node out of a queue that has `k` nodes at the start -/
def KeepsOne : ℕ → List Op → Prop
  | _, [] => True
  | k, .enqueue :: ops => KeepsOne (k + 1) ops
  | k, .dequeue :: ops => k ≠ 1 ∧ KeepsOne (k - 1) ops

/-- what the list is to be like in every state of a run with the trace `tr` -/
structure Correct (a : Addr) (tr : List Event) (s : St Unit State Loc) : Prop where
  represents : (s.loc ()).call = none → Represents a (pending tr) s.sh
  live : ∀ n, .accessed n false ∉ tr

@[simp] theorem pending_append (tr es : List Event) : pending (tr ++ es) = es.foldl pendingStep (pending tr) :=
  List.foldl_append

/-! ## The list at each point of the functions -/

/-- the chain, without `q->tail` -/
structure Linked (a : Addr) (L : List Addr) (x : State) : Prop where
  head : x.queue.head = a
  chain : Chain (nextOf x) (nextOf x a) L
  notMem : a ∉ L
  live : ∀ n ∈ a :: L, x.mem.live n = true

structure Sound (a : Addr) (L : List Addr) (x : State) : Prop where
  linked : Linked a L x
  tail : x.queue.tail = L.getLastD a

theorem Sound.represents {a : Addr} {L : List Addr} {x : State} (h : Sound a L x) : Represents a L x :=
  ⟨h.linked.head, h.linked.chain, h.tail⟩

/-- `n` is allocated and not in the list -/
structure Extra (a : Addr) (L : List Addr) (n : Addr) (x : State) : Prop where
  notMem : n ∉ a :: L
  live : x.mem.live n = true

def AtEnqueue (a : Addr) (L : List Addr) (x : State) : EnqueuePc → Prop
  | .malloc => Sound a L x ∧ x.queue.glock = 1
  | .initSem n => Sound a L x ∧ x.queue.glock = 1 ∧ Extra a L n x
  | .initNext n => Sound a L x ∧ x.queue.glock = 1 ∧ Extra a L n x
  | .waitGlock n => Sound a L x ∧ x.queue.glock = 1 ∧ Extra a L n x ∧ nextOf x n = none
  | .loadTail n => Sound a L x ∧ x.queue.glock = 0 ∧ Extra a L n x ∧ nextOf x n = none
  | .storeTailNext n tail =>
    Sound a L x ∧ x.queue.glock = 0 ∧ Extra a L n x ∧ nextOf x n = none ∧ tail = L.getLastD a
  | .storeTail n => Linked a (L ++ [n]) x ∧ x.queue.glock = 0
  | .postGlock _ => Sound a L x ∧ x.queue.glock = 0
  | .waitSem _ => Sound a L x ∧ x.queue.glock = 1

/-- after a dequeue from the queue `L` -/
structure Unlinked (a : Addr) (L : List Addr) (x : State) : Prop where
  linked : Linked a L.tail x
  tail : x.queue.tail = L.getLastD a

def AtDequeue (a : Addr) (L : List Addr) (x : State) : DequeuePc → Prop
  | .waitGlock => Sound a L x ∧ x.queue.glock = 1
  | .loadHead => Sound a L x ∧ x.queue.glock = 0
  | .testNext head => Sound a L x ∧ x.queue.glock = 0 ∧ head = a
  | .loadHeadCurr => Sound a L x ∧ x.queue.glock = 0 ∧ L ≠ []
  | .loadCurr head => Sound a L x ∧ x.queue.glock = 0 ∧ L ≠ [] ∧ head = a
  | .loadNext curr => Sound a L x ∧ x.queue.glock = 0 ∧ L.head? = some curr
  | .loadHeadStore curr next => Sound a L x ∧ x.queue.glock = 0 ∧ L.head? = some curr ∧ next = nextOf x curr
  | .storeHeadNext curr next head =>
    Sound a L x ∧ x.queue.glock = 0 ∧ L.head? = some curr ∧ next = nextOf x curr ∧ head = a
  | .postSem curr => Unlinked a L x ∧ x.queue.glock = 0 ∧ Extra a L.tail curr x
  | .semDestroy curr => Unlinked a L x ∧ x.queue.glock = 0 ∧ Extra a L.tail curr x
  | .free curr => Unlinked a L x ∧ x.queue.glock = 0 ∧ Extra a L.tail curr x
  | .postGlock => Unlinked a L x ∧ x.queue.glock = 0

/-! ## Steps -/

@[simp] theorem nextOf_store (x : State) (n : Addr) (f : Node → Node) :
    nextOf (x.store n f) = Function.update (nextOf x) n (f (x.mem.cell n)).next := by
  funext m
  by_cases h : m = n
  · subst h
    simp [nextOf, State.store]
  · simp [nextOf, State.store, h]

@[simp] theorem nextOf_setQueue (x : State) (q : LockQueue) : nextOf (x.setQueue q) = nextOf x := rfl

theorem Linked.congr {a : Addr} {L : List Addr} {x x' : State} (h : Linked a L x) (hq : x'.queue.head = x.queue.head)
    (hn : ∀ m ∈ a :: L, nextOf x' m = nextOf x m) (hl : ∀ m ∈ a :: L, x'.mem.live m = x.mem.live m) :
    Linked a L x' := by
  refine ⟨hq.trans h.head, ?_, h.notMem, ?_⟩
  · rw [hn a List.mem_cons_self]
    exact h.chain.congr fun m hm => hn m (List.mem_cons_of_mem _ hm)
  · intro m hm
    rw [hl m hm]
    exact h.live m hm

theorem Sound.congr {a : Addr} {L : List Addr} {x x' : State} (h : Sound a L x) (hq : x'.queue.head = x.queue.head)
    (ht : x'.queue.tail = x.queue.tail) (hn : ∀ m ∈ a :: L, nextOf x' m = nextOf x m)
    (hl : ∀ m ∈ a :: L, x'.mem.live m = x.mem.live m) : Sound a L x' :=
  ⟨h.linked.congr hq hn hl, ht.trans h.tail⟩

/-- `glock` is not part of the list -/
theorem Sound.setGlock {a : Addr} {L : List Addr} {x : State} (h : Sound a L x) (v : ℕ) :
    Sound a L (x.setQueue { x.queue with glock := v }) :=
  h.congr rfl rfl (fun _ _ => rfl) fun _ _ => rfl

/-- nor is a node that is not in the list -/
theorem Sound.store {a n : Addr} {L : List Addr} {x : State} (h : Sound a L x) (hn : n ∉ a :: L) (f : Node → Node) :
    Sound a L (x.store n f) := by
  refine h.congr rfl rfl ?_ fun _ _ => rfl
  intro m hm
  rw [nextOf_store, Function.update_of_ne (ne_of_mem_of_not_mem hm hn)]

/-- the last node of the list, or the dummy node -/
theorem getLastD_mem (a : Addr) (L : List Addr) : L.getLastD a ∈ a :: L := by
  rcases List.eq_nil_or_concat L with rfl | ⟨l, q, rfl⟩
  · simp
  · simp

/-- the write to `q->tail->next` puts the new node at the end of the chain -/
theorem Sound.storeTailNext {a n : Addr} {L : List Addr} {x : State} (h : Sound a L x) (hn : Extra a L n x)
    (hnext : nextOf x n = none) :
    Linked a (L ++ [n]) (x.store (L.getLastD a) fun node => { node with next := some n }) := by
  obtain ⟨hna, hnL⟩ := List.ne_and_not_mem_of_not_mem_cons hn.notMem
  refine ⟨h.linked.head, ?_, ?_, ?_⟩
  · rw [nextOf_store]
    exact h.linked.chain.concat h.linked.notMem hn.notMem hnext
  · simpa using ⟨h.linked.notMem, hna.symm⟩
  · intro m hm
    rw [← List.cons_append] at hm
    rcases List.mem_append.1 hm with hm | hm
    · exact h.linked.live m hm
    · rw [List.mem_singleton.1 hm]
      exact hn.live

theorem enqueue_step {a : Addr} {L : List Addr} {c : Alloc Node} {x x' : State} {p : EnqueuePc} {o : Option EnqueuePc}
    (h : AtEnqueue a L x p) (hp : ∀ n, p ≠ .waitSem n) (hs : lockQueueEnqueue c x p = some (x', o)) :
    ∃ p', o = some p' ∧ AtEnqueue a ((enqueueEvents x p).foldl pendingStep L) x' p' := by
  cases p with
  | malloc =>
    simp only [lockQueueEnqueue] at hs
    split at hs
    · rename_i mem n hm
      obtain ⟨hfree, rfl⟩ := malloc_some hm
      cases hs
      obtain ⟨h, hg⟩ := h
      have hn : n ∉ a :: L := fun hn => by simp [h.linked.live n hn] at hfree
      refine ⟨_, rfl, ?_, hg, hn, ?_⟩
      · refine h.congr rfl rfl (fun _ _ => rfl) ?_
        intro m hm
        exact alloc_live_other _ (ne_of_mem_of_not_mem hm hn)
      · simp [alloc]
    · cases hs
  | initSem n =>
    obtain ⟨h, hg, hn⟩ := h
    cases hs
    exact ⟨_, rfl, h.store hn.notMem _, hg, hn.notMem, hn.live⟩
  | initNext n =>
    obtain ⟨h, hg, hn⟩ := h
    cases hs
    exact ⟨_, rfl, h.store hn.notMem _, hg, ⟨hn.notMem, hn.live⟩, by simp⟩
  | waitGlock n =>
    obtain ⟨h, hg, hn, hnext⟩ := h
    obtain ⟨v, hv, he⟩ := wait_step hs
    cases he
    exact ⟨_, rfl, h.setGlock v, Nat.succ.inj (hv.symm.trans hg), ⟨hn.notMem, hn.live⟩, hnext⟩
  | loadTail n =>
    obtain ⟨h, hg, hn, hnext⟩ := h
    cases hs
    exact ⟨_, rfl, h, hg, hn, hnext, h.tail⟩
  | storeTailNext n tail =>
    obtain ⟨h, hg, hn, hnext, rfl⟩ := h
    cases hs
    exact ⟨_, rfl, h.storeTailNext hn hnext, hg⟩
  | storeTail n =>
    obtain ⟨h, hg⟩ := h
    cases hs
    refine ⟨_, rfl, ⟨h.congr rfl (fun _ _ => rfl) fun _ _ => rfl, ?_⟩, hg⟩
    simp [enqueueEvents, pendingStep, State.setQueue, State.queue]
  | postGlock n =>
    obtain ⟨h, hg⟩ := h
    cases hs
    exact ⟨_, rfl, h.setGlock _, congrArg semPost hg⟩
  | waitSem n => exact absurd rfl (hp n)

theorem Sound.chain_cons {a curr : Addr} {L : List Addr} {x : State} (h : Sound a L x) (hc : L.head? = some curr) :
    ∃ L', L = curr :: L' ∧ Chain (nextOf x) (nextOf x curr) L' ∧ Extra a L' curr x := by
  obtain ⟨L', rfl⟩ := List.head?_eq_some_iff.1 hc
  have hnd := h.linked.chain.nodup
  refine ⟨L', rfl, h.linked.chain.2, ?_, h.linked.live curr (by simp)⟩
  rw [List.mem_cons, not_or]
  exact ⟨fun he => h.linked.notMem (by simp [he]), (List.nodup_cons.1 hnd).1⟩

/-- the write to `q->head->next` takes the first node out of the chain; `q->tail` stays -/
theorem Sound.storeHeadNext {a curr : Addr} {L : List Addr} {x : State} (h : Sound a L x) (hc : L.head? = some curr) :
    Unlinked a L (x.store a fun node => { node with next := nextOf x curr }) ∧
      Extra a L.tail curr (x.store a fun node => { node with next := nextOf x curr }) := by
  obtain ⟨L', rfl, hchain, hx⟩ := h.chain_cons hc
  have hna : a ∉ L' := fun ha => h.linked.notMem (List.mem_cons_of_mem _ ha)
  refine ⟨⟨⟨h.linked.head, ?_, hna, ?_⟩, h.tail⟩, hx.notMem, hx.live⟩
  · rw [nextOf_store, Function.update_self]
    exact hchain.congr fun m hm => Function.update_of_ne (ne_of_mem_of_not_mem hm hna) _ _
  · intro m hm
    refine h.linked.live m ?_
    rcases List.mem_cons.1 hm with rfl | hm
    · exact List.mem_cons_self
    · exact List.mem_cons_of_mem _ (List.mem_cons_of_mem _ hm)

theorem Unlinked.congr {a : Addr} {L : List Addr} {x x' : State} (h : Unlinked a L x)
    (hq : x'.queue.head = x.queue.head) (ht : x'.queue.tail = x.queue.tail)
    (hn : ∀ m ∈ a :: L.tail, nextOf x' m = nextOf x m) (hl : ∀ m ∈ a :: L.tail, x'.mem.live m = x.mem.live m) :
    Unlinked a L x' :=
  ⟨h.linked.congr hq hn hl, ht.trans h.tail⟩

/-- only the last node's removal leaves `q->tail` wrong -/
theorem Unlinked.sound {a : Addr} {L : List Addr} {x : State} (h : Unlinked a L x) (hL : L.length ≠ 1) :
    Sound a L.tail x := by
  refine ⟨h.linked, h.tail.trans ?_⟩
  match L, hL with
  | [], _ => rfl
  | [_], hL => exact absurd rfl hL
  | _ :: _ :: _, _ => rfl

theorem dequeue_step {a : Addr} {L : List Addr} {c : Alloc Node} {x x' : State} {p p' : DequeuePc}
    (h : AtDequeue a L x p) (hs : lockQueueDequeue c x p = some (x', some p')) : AtDequeue a L x' p' := by
  cases p with
  | waitGlock =>
    obtain ⟨h, hg⟩ := h
    obtain ⟨v, hv, he⟩ := wait_step hs
    cases he
    exact ⟨h.setGlock v, Nat.succ.inj (hv.symm.trans hg)⟩
  | loadHead =>
    obtain ⟨h, hg⟩ := h
    cases hs
    exact ⟨h, hg, h.linked.head⟩
  | testNext head =>
    obtain ⟨h, hg, rfl⟩ := h
    have hchain := h.linked.chain
    simp only [lockQueueDequeue] at hs
    split at hs
    · rename_i hn
      cases hs
      cases L with
      | nil => exact ⟨⟨h.linked, h.tail⟩, hg⟩
      | cons b L => exact absurd (hchain.1.symm.trans hn) (by simp)
    · rename_i hn
      cases hs
      refine ⟨h, hg, ?_⟩
      rintro rfl
      exact absurd (hchain.symm.trans hn) (by simp)
  | loadHeadCurr =>
    obtain ⟨h, hg, hL⟩ := h
    cases hs
    exact ⟨h, hg, hL, h.linked.head⟩
  | loadCurr head =>
    obtain ⟨h, hg, hL, rfl⟩ := h
    obtain ⟨curr, hc, he⟩ := Option.map_eq_some_iff.1 hs
    cases he
    cases L with
    | nil => exact absurd rfl hL
    | cons b L =>
      obtain rfl : b = curr := Option.some.inj (h.linked.chain.1.symm.trans hc)
      exact ⟨h, hg, rfl⟩
  | loadNext curr =>
    obtain ⟨h, hg, hc⟩ := h
    cases hs
    exact ⟨h, hg, hc, rfl⟩
  | loadHeadStore curr next =>
    obtain ⟨h, hg, hc, hn⟩ := h
    cases hs
    exact ⟨h, hg, hc, hn, h.linked.head⟩
  | storeHeadNext curr next head =>
    obtain ⟨h, hg, hc, rfl, rfl⟩ := h
    cases hs
    obtain ⟨hu, hx⟩ := h.storeHeadNext hc
    exact ⟨hu, hg, hx⟩
  | postSem curr =>
    obtain ⟨h, hg, hx⟩ := h
    cases hs
    refine ⟨h.congr rfl rfl ?_ fun _ _ => rfl, hg, hx.notMem, hx.live⟩
    intro m hm
    rw [nextOf_store, Function.update_of_ne (ne_of_mem_of_not_mem hm hx.notMem)]
  | semDestroy curr => cases hs; exact h
  | free curr =>
    obtain ⟨h, hg, hx⟩ := h
    cases hs
    have hne : ∀ m ∈ a :: L.tail, m ≠ curr := fun m hm => ne_of_mem_of_not_mem hm hx.notMem
    refine ⟨h.congr rfl rfl ?_ ?_, hg⟩
    · intro m hm
      exact congrArg Node.next (free_other c x.mem (hne m hm))
    · intro m hm
      exact free_live_other c x.mem (hne m hm)
  | postGlock => cases hs

theorem dequeue_return {a : Addr} {L : List Addr} {c : Alloc Node} {x x' : State} {p : DequeuePc}
    (h : AtDequeue a L x p) (hs : lockQueueDequeue c x p = some (x', none)) :
    p = .postGlock ∧ Unlinked a L x' ∧ x'.queue.glock = 1 := by
  cases p with
  | postGlock =>
    obtain ⟨h, hg⟩ := h
    cases hs
    exact ⟨rfl, h.congr rfl rfl (fun _ _ => rfl) fun _ _ => rfl, congrArg semPost hg⟩
  | waitGlock =>
    obtain ⟨v, -, he⟩ := wait_step hs
    cases he
  | testNext head =>
    simp only [lockQueueDequeue] at hs
    split at hs <;> cases hs
  | loadCurr head =>
    obtain ⟨v, -, he⟩ := Option.map_eq_some_iff.1 hs
    cases he
  | _ => cases hs

/-! ## Accesses -/

theorem access_live {x : State} {m : Addr} (h : x.mem.live m = true) (n : Addr) : .accessed n false ∉ access x m := by
  simp [access, h]

theorem enqueue_live {a : Addr} {L : List Addr} {x : State} {p : EnqueuePc} (h : AtEnqueue a L x p) (n : Addr) :
    .accessed n false ∉ enqueueEvents x p := by
  cases p with
  | initSem m =>
    obtain ⟨-, -, hm⟩ := h
    exact access_live hm.live n
  | initNext m =>
    obtain ⟨-, -, hm⟩ := h
    exact access_live hm.live n
  | storeTailNext m tail =>
    obtain ⟨h, -, -, -, rfl⟩ := h
    exact access_live (h.linked.live _ (getLastD_mem a L)) n
  | storeTail m => simp [enqueueEvents]
  | _ => exact List.not_mem_nil

theorem dequeue_live {a : Addr} {L : List Addr} {x : State} {p : DequeuePc} (h : AtDequeue a L x p) (n : Addr) :
    .accessed n false ∉ dequeueEvents x p := by
  cases p with
  | testNext head =>
    obtain ⟨h, -, rfl⟩ := h
    exact access_live (h.linked.live _ List.mem_cons_self) n
  | loadCurr head =>
    obtain ⟨h, -, -, rfl⟩ := h
    exact access_live (h.linked.live _ List.mem_cons_self) n
  | loadNext curr =>
    obtain ⟨h, -, hc⟩ := h
    obtain ⟨L', -, -, hx⟩ := h.chain_cons hc
    exact access_live hx.live n
  | storeHeadNext curr next head =>
    obtain ⟨h, -, -, -, rfl⟩ := h
    exact access_live (h.linked.live _ List.mem_cons_self) n
  | postSem curr =>
    obtain ⟨-, -, hx⟩ := h
    exact access_live hx.live n
  | semDestroy curr =>
    obtain ⟨-, -, hx⟩ := h
    exact access_live hx.live n
  | free curr =>
    obtain ⟨-, -, hx⟩ := h
    exact access_live hx.live n
  | postGlock => simp [dequeueEvents]
  | _ => exact List.not_mem_nil

/-! ## Runs that keep a node -/

def AtLoc (a : Addr) (L : List Addr) (x : State) : Option Call → Prop
  | none => Sound a L x ∧ x.queue.glock = 1
  | some (.enqueue p) => AtEnqueue a L x p
  | some (.dequeue p) => AtDequeue a L x p ∧ L.length ≠ 1

/-- how many nodes are in the queue when the call returns, if there are `k` now -/
def sizeAfter (k : ℕ) : Option Call → ℕ
  | none => k
  | some (.enqueue (.postGlock _)) => k
  | some (.enqueue (.waitSem _)) => k
  | some (.enqueue _) => k + 1
  | some (.dequeue _) => k - 1

structure Inv (a : Addr) (tr : List Event) (s : St Unit State Loc) : Prop where
  at_loc : AtLoc a (pending tr) s.sh (s.loc ()).call
  keeps : KeepsOne (sizeAfter (pending tr).length (s.loc ()).call) (s.loc ()).todo
  live : ∀ n, .accessed n false ∉ tr

theorem enqueue_size {c : Alloc Node} {x x' : State} {p p' : EnqueuePc} (L : List Addr)
    (hs : lockQueueEnqueue c x p = some (x', some p')) :
    sizeAfter ((enqueueEvents x p).foldl pendingStep L).length (some (.enqueue p')) =
      sizeAfter L.length (some (.enqueue p)) := by
  cases p with
  | malloc =>
    simp only [lockQueueEnqueue] at hs
    split at hs <;> cases hs
    rfl
  | waitGlock n =>
    obtain ⟨v, -, he⟩ := wait_step hs
    cases he
    rfl
  | storeTail n =>
    cases hs
    simp [enqueueEvents, pendingStep, sizeAfter]
  | waitSem n =>
    obtain ⟨v, -, he⟩ := wait_step hs
    cases he
  | _ => cases hs; rfl

theorem dequeue_pending {x : State} {p : DequeuePc} (L : List Addr) (hp : p ≠ .postGlock) :
    (dequeueEvents x p).foldl pendingStep L = L := by
  cases p with
  | postGlock => exact absurd rfl hp
  | _ => rfl

theorem seq_step {a : Addr} {L : List Addr} {c : Alloc Node} {x x' : State} {l l' : Loc} {es : List Event}
    (h : AtLoc a L x l.call) (hk : KeepsOne (sizeAfter L.length l.call) l.todo)
    (hs : sequential () c x l = some (x', l', es)) :
    AtLoc a (es.foldl pendingStep L) x' l'.call ∧
      KeepsOne (sizeAfter (es.foldl pendingStep L).length l'.call) l'.todo ∧ ∀ n, .accessed n false ∉ es := by
  obtain ⟨call, todo⟩ := l
  cases call with
  | none =>
    cases todo with
    | nil => cases hs
    | cons op ops =>
      cases op with
      | enqueue =>
        cases hs
        exact ⟨h, hk, fun _ => List.not_mem_nil⟩
      | dequeue =>
        cases hs
        exact ⟨⟨h, hk.1⟩, hk.2, fun _ => List.not_mem_nil⟩
  | some call =>
    cases call with
    | enqueue p =>
      by_cases hp : ∃ n, p = .waitSem n
      · obtain ⟨n, rfl⟩ := hp
        cases hs
        exact ⟨h, hk, fun _ => List.not_mem_nil⟩
      · push Not at hp
        have hs' : (lockQueueEnqueue c x p).map (fun r => (r.1, (⟨r.2.map Call.enqueue, todo⟩ : Loc),
            enqueueEvents x p)) = some (x', l', es) := by
          cases p with
          | waitSem n => exact absurd rfl (hp n)
          | _ => exact hs
        obtain ⟨⟨y, o⟩, hq, he⟩ := Option.map_eq_some_iff.1 hs'
        cases he
        obtain ⟨p', rfl, hat⟩ := enqueue_step h hp hq
        refine ⟨hat, ?_, enqueue_live h⟩
        rw [Option.map_some, enqueue_size L hq]
        exact hk
    | dequeue p =>
      obtain ⟨h, hL⟩ := h
      obtain ⟨⟨y, o⟩, hq, he⟩ := Option.map_eq_some_iff.1 hs
      cases he
      cases o with
      | none =>
        obtain ⟨rfl, hu, hg⟩ := dequeue_return h hq
        refine ⟨⟨hu.sound hL, hg⟩, ?_, dequeue_live h⟩
        simpa [dequeueEvents, pendingStep, sizeAfter] using hk
      | some p' =>
        have hp : p ≠ .postGlock := by
          rintro rfl
          cases hq
        refine ⟨?_, ?_, dequeue_live h⟩
        · rw [dequeue_pending L hp]
          exact ⟨dequeue_step h hq, hL⟩
        · rw [dequeue_pending L hp]
          exact hk

theorem sound_init (cell : Addr → Node) (a : Addr) : Sound a [] (nsMutexInit cell a) := by
  refine ⟨⟨rfl, ?_, List.not_mem_nil, ?_⟩, rfl⟩
  · simp [Chain, nextOf, nsMutexInit, lockQueueInit]
  · simp [nsMutexInit, lockQueueInit, alloc]

/-- **The queue while a node stays.** -/
theorem sound_run {cell : Addr → Node} {a : Addr} {ops : List Op} {as : List (Unit × Alloc Node)} {tr : List Event}
    {s : St Unit State Loc} (h : Run sequential (startOps cell a ops) as tr s) (hk : KeepsOne 0 ops) : Inv a tr s := by
  refine h.inv_trace ?_ ?_
  · exact ⟨⟨sound_init cell a, rfl⟩, hk, fun _ => List.not_mem_nil⟩
  · intro tr s t c sh l es hi hs
    obtain ⟨hat, hkeeps, hlive⟩ := seq_step hi.at_loc hi.keeps hs
    refine ⟨?_, ?_, ?_⟩
    · simpa using hat
    · simpa using hkeeps
    · intro n hn
      rcases List.mem_append.1 hn with hn | hn
      · exact hi.live n hn
      · exact hlive n hn

theorem Inv.correct {a : Addr} {tr : List Event} {s : St Unit State Loc} (h : Inv a tr s) : Correct a tr s := by
  refine ⟨?_, h.live⟩
  intro hc
  have hat := h.at_loc
  rw [hc] at hat
  exact hat.1.represents

/-! ## Calls run to their return -/

/-- there is always memory left -/
def Room (x : State) : Prop := ∃ B, ∀ b, B ≤ b → x.mem.live b = false

def enqueueRank : EnqueuePc → ℕ
  | .malloc => 8
  | .initSem _ => 7
  | .initNext _ => 6
  | .waitGlock _ => 5
  | .loadTail _ => 4
  | .storeTailNext _ _ => 3
  | .storeTail _ => 2
  | .postGlock _ => 1
  | .waitSem _ => 0

def dequeueRank : DequeuePc → ℕ
  | .waitGlock => 11
  | .loadHead => 10
  | .testNext _ => 9
  | .loadHeadCurr => 8
  | .loadCurr _ => 7
  | .loadNext _ => 6
  | .loadHeadStore _ _ => 5
  | .storeHeadNext _ _ _ => 4
  | .postSem _ => 3
  | .semDestroy _ => 2
  | .free _ => 1
  | .postGlock => 0

/-- an answer of the allocator that only matters to `malloc` -/
def answer (n : Addr) : Alloc Node := ⟨some n, ⟨0, none⟩⟩

theorem enqueue_progress {a : Addr} {L : List Addr} {x : State} {p : EnqueuePc} (h : AtEnqueue a L x p) (hr : Room x)
    (hp : ∀ n, p ≠ .waitSem n) :
    ∃ c x' p', lockQueueEnqueue c x p = some (x', some p') ∧ Room x' ∧ enqueueRank p' < enqueueRank p := by
  obtain ⟨B, hB⟩ := hr
  cases p with
  | malloc =>
    refine ⟨answer B, { x with mem := alloc x.mem B }, .initSem B, ?_, ⟨B + 1, ?_⟩, Nat.lt_succ_self 7⟩
    · simp [lockQueueEnqueue, malloc, answer, hB B le_rfl]
    · intro b hb
      have hne : b ≠ B := Nat.ne_of_gt (Nat.lt_of_succ_le hb)
      exact (alloc_live_other _ hne).trans (hB b (Nat.le_of_succ_le hb))
  | waitGlock n =>
    obtain ⟨-, hg, -⟩ := h
    have hw : semWait x.queue.glock = some 0 := semWait_eq_some.2 hg
    exact ⟨answer 0, x.setQueue { x.queue with glock := 0 }, .loadTail n, by simp [lockQueueEnqueue, hw], ⟨B, hB⟩,
      Nat.lt_succ_self _⟩
  | waitSem n => exact absurd rfl (hp n)
  | _ => exact ⟨answer 0, _, _, rfl, ⟨B, hB⟩, Nat.lt_succ_self _⟩

theorem dequeue_progress {a : Addr} {L : List Addr} {x : State} {p : DequeuePc} (h : AtDequeue a L x p) (hr : Room x)
    (hp : p ≠ .postGlock) :
    ∃ c x' p', lockQueueDequeue c x p = some (x', some p') ∧ Room x' ∧ dequeueRank p' < dequeueRank p := by
  obtain ⟨B, hB⟩ := hr
  cases p with
  | waitGlock =>
    obtain ⟨-, hg⟩ := h
    have hw : semWait x.queue.glock = some 0 := semWait_eq_some.2 hg
    exact ⟨answer 0, x.setQueue { x.queue with glock := 0 }, .loadHead, by simp [lockQueueDequeue, hw], ⟨B, hB⟩,
      Nat.lt_succ_self _⟩
  | testNext head =>
    cases hn : (x.mem.cell head).next with
    | none => exact ⟨answer 0, x, .postGlock, by simp [lockQueueDequeue, hn], ⟨B, hB⟩, Nat.zero_lt_succ 8⟩
    | some n => exact ⟨answer 0, x, .loadHeadCurr, by simp [lockQueueDequeue, hn], ⟨B, hB⟩, Nat.lt_succ_self 8⟩
  | loadCurr head =>
    obtain ⟨h, -, hL, rfl⟩ := h
    cases L with
    | nil => exact absurd rfl hL
    | cons n L =>
      have hn : (x.mem.cell head).next = some n := h.linked.chain.1
      exact ⟨answer 0, x, .loadNext n, by simp [lockQueueDequeue, hn], ⟨B, hB⟩, Nat.lt_succ_self _⟩
  | free curr =>
    refine ⟨answer 0, _, .postGlock, rfl, ⟨B, ?_⟩, Nat.zero_lt_succ 0⟩
    intro b hb
    by_cases hc : b = curr
    · simp [Heap.free, hc]
    · exact (free_live_other _ _ hc).trans (hB b hb)
  | postGlock => exact absurd rfl hp
  | _ => exact ⟨answer 0, _, _, rfl, ⟨B, hB⟩, Nat.lt_succ_self _⟩

/-- between two calls -/
structure Calm (a : Addr) (L : List Addr) (x : State) : Prop where
  sound : Sound a L x
  glock : x.queue.glock = 1
  room : Room x

theorem finish_enqueue {a : Addr} {L : List Addr} {x : State} {p : EnqueuePc} (ops : List Op) (h : AtEnqueue a L x p)
    (hr : Room x) :
    ∃ tr x', Alone sequential () x ⟨some (.enqueue p), ops⟩ tr x' ⟨none, ops⟩ ∧
      Calm a (tr.foldl pendingStep L) x' ∧
      (tr.foldl pendingStep L).length = sizeAfter L.length (some (.enqueue p)) := by
  induction hk : enqueueRank p using Nat.strong_induction_on generalizing L x p with
  | _ k ih =>
    by_cases hp : ∃ n, p = .waitSem n
    · obtain ⟨n, rfl⟩ := hp
      exact ⟨[], x, .single (c := answer 0) rfl, ⟨h.1, h.2, hr⟩, rfl⟩
    · push Not at hp
      obtain ⟨c, x₁, p₁, hs, hr₁, hlt⟩ := enqueue_progress h hr hp
      obtain ⟨p', he, hat⟩ := enqueue_step h hp hs
      cases he
      obtain ⟨tr, x', hrun, hcalm, hsize⟩ := ih _ (hk ▸ hlt) hat hr₁ rfl
      have hstep : sequential () c x ⟨some (.enqueue p), ops⟩ =
          some (x₁, ⟨some (.enqueue p₁), ops⟩, enqueueEvents x p) := by
        cases p with
        | waitSem n => exact absurd rfl (hp n)
        | _ => simp only [sequential, hs, Option.map_some]
      refine ⟨enqueueEvents x p ++ tr, x', .head hstep hrun, ?_, ?_⟩
      · rw [List.foldl_append]
        exact hcalm
      · rw [List.foldl_append, hsize]
        exact enqueue_size L hs

theorem finish_dequeue {a : Addr} {L : List Addr} {x : State} {p : DequeuePc} (ops : List Op) (h : AtDequeue a L x p)
    (hr : Room x) :
    ∃ tr x', Alone sequential () x ⟨some (.dequeue p), ops⟩ tr x' ⟨none, ops⟩ ∧ tr.foldl pendingStep L = L.tail ∧
      Unlinked a L x' ∧ x'.queue.glock = 1 ∧ Room x' := by
  induction hk : dequeueRank p using Nat.strong_induction_on generalizing x p with
  | _ k ih =>
    by_cases hp : p = .postGlock
    · subst hp
      have hret := dequeue_return h (c := answer 0) rfl
      exact ⟨[.dequeued], _, .single (c := answer 0) rfl, rfl, hret.2.1, hret.2.2, hr⟩
    · obtain ⟨c, x₁, p₁, hs, hr₁, hlt⟩ := dequeue_progress h hr hp
      obtain ⟨tr, x', hrun, hpend, hrest⟩ := ih _ (hk ▸ hlt) (dequeue_step h hs) hr₁ rfl
      refine ⟨dequeueEvents x p ++ tr, x', .head (c := c) (by simp [sequential, hs]) hrun, ?_, hrest⟩
      rw [List.foldl_append, dequeue_pending L hp]
      exact hpend

/-- the first point of a call -/
theorem alone_enter {x x' : State} {op : Op} {ops : List Op} {tr : List Event} {l : Loc}
    (h : Alone sequential () x ⟨some (enter op), ops⟩ tr x' l) : Alone sequential () x ⟨none, op :: ops⟩ tr x' l :=
  .silent (c := answer 0) rfl h

/-- **The last node.** The dequeue of the only node leaves `q->tail` at the node, not at the dummy. -/
theorem taken {a n : Addr} {x : State} (h : Calm a [n] x) (ops : List Op) :
    ∃ tr x', Alone sequential () x ⟨none, .dequeue :: ops⟩ tr x' ⟨none, ops⟩ ∧ tr.foldl pendingStep [n] = [] ∧
      x'.queue.tail = n ∧ n ≠ a := by
  obtain ⟨tr, x', hrun, hpend, hu, -, -⟩ :=
    finish_dequeue (p := .waitGlock) ops ⟨h.sound, h.glock⟩ h.room
  refine ⟨tr, x', alone_enter hrun, hpend, hu.tail, ?_⟩
  rintro rfl
  exact h.sound.linked.notMem List.mem_cons_self

/-- calls one of which takes the only node out run to the return of that call -/
theorem reach_taken {a : Addr} {ops : List Op} {L : List Addr} {x : State} (h : Calm a L x)
    (hk : ¬ KeepsOne L.length ops) :
    ∃ tr x' ops', Alone sequential () x ⟨none, ops⟩ tr x' ⟨none, ops'⟩ ∧
      ¬ Represents a (tr.foldl pendingStep L) x' := by
  induction ops generalizing L x with
  | nil => exact absurd trivial hk
  | cons op ops ih =>
    cases op with
    | enqueue =>
      obtain ⟨tr, x₁, hrun, hcalm, hsize⟩ := finish_enqueue (p := .malloc) ops ⟨h.sound, h.glock⟩ h.room
      obtain ⟨tr', x', ops', hrun', hno⟩ := ih hcalm (by rw [hsize]; exact hk)
      refine ⟨tr ++ tr', x', ops', (alone_enter hrun).trans hrun', ?_⟩
      rw [List.foldl_append]
      exact hno
    | dequeue =>
      by_cases hL : L.length = 1
      · obtain ⟨n, rfl⟩ := List.length_eq_one_iff.1 hL
        obtain ⟨tr, x', hrun, hpend, htail, hna⟩ := taken h ops
        refine ⟨tr, x', ops, hrun, ?_⟩
        intro hrep
        rw [hpend] at hrep
        exact hna (htail.symm.trans hrep.tail)
      · obtain ⟨tr, x₁, hrun, hpend, hu, hg, hr⟩ :=
          finish_dequeue (p := .waitGlock) ops ⟨h.sound, h.glock⟩ h.room
        have hkeep : ¬ KeepsOne L.tail.length ops := by
          rw [List.length_tail]
          exact fun hkeep => hk ⟨hL, hkeep⟩
        obtain ⟨tr', x', ops', hrun', hno⟩ := ih ⟨hu.sound hL, hg, hr⟩ hkeep
        refine ⟨tr ++ tr', x', ops', (alone_enter hrun).trans hrun', ?_⟩
        rw [List.foldl_append, hpend]
        exact hno

theorem calm_init (cell : Addr → Node) (a : Addr) : Calm a [] (nsMutexInit cell a) := by
  refine ⟨sound_init cell a, rfl, a + 1, ?_⟩
  intro b hb
  have hne : b ≠ a := Nat.ne_of_gt (Nat.lt_of_succ_le hb)
  simp [nsMutexInit, lockQueueInit, alloc, Heap.empty, hne]

/-- **When the list is a queue.** In every run the list stands for the appended and not yet dequeued nodes after each
call, and no step accesses a freed node, exactly when no dequeue takes the only node out. -/
theorem queue_iff (cell : Addr → Node) (a : Addr) (ops : List Op) :
    (∀ as tr s, Run sequential (startOps cell a ops) as tr s → Correct a tr s) ↔ KeepsOne 0 ops := by
  refine ⟨?_, ?_⟩
  · intro h
    by_contra hk
    obtain ⟨tr, x, ops', halone, hno⟩ := reach_taken (calm_init cell a) hk
    obtain ⟨as, hr⟩ := Alone.run (s := startOps cell a ops) halone
    exact hno ((h _ _ _ hr).represents (by simp))
  · intro hk as tr s hr
    exact (sound_run hr hk).correct

/-- an enqueue, a dequeue, an enqueue: the second enqueue writes to the first node, which is freed, and the second node
is not in the chain -/
theorem lost_node :
    ∃ as tr s, Run sequential (startOps (fun _ => ⟨0, none⟩) 0 [.enqueue, .dequeue, .enqueue]) as tr s ∧
      .accessed 1 false ∈ tr ∧ pending tr = [2] ∧ nextOf s.sh 0 = none ∧ ¬ Correct 0 tr s := by
  obtain ⟨s, tr, h, hacc, hpend, hnext⟩ := exec_any_run sequential
    (startOps (fun _ => ⟨0, none⟩) 0 [.enqueue, .dequeue, .enqueue])
    (List.replicate 23 ((), answer 1) ++ List.replicate 10 ((), answer 2))
    (fun s tr => .accessed 1 false ∈ tr ∧ pending tr = [2] ∧ nextOf s.sh 0 = none) (by decide +kernel)
  exact ⟨_, tr, s, h, hacc, hpend, hnext, fun hc => hc.live 1 hacc⟩

end OsPractice.NsMutexQueue
