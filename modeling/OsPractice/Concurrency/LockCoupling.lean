/-
The list with hand-over-hand locking (`lock_coupling.c`): `list_init`, `list_insert`, `list_delete`, and threads that
run them in any interleaving. Each lock and unlock of a mutex, each allocator call and each access to a field of the
list or of a node is one step.

A mutex records the thread that locked it; locking waits until it is free. The memory is the one of `Heap`: a freed node
can be read and written, with whatever `free` left in it, and its address can be returned by a later `malloc`.

`sequential` is the list that the operations produce when they run one after another in the order in which they lock the
head node's mutex. The invariant that relates the two is in `LockCouplingInv`.
-/
import OsPractice.Core.Interleave
import OsPractice.Core.Heap

namespace OsPractice.LockCoupling

open Interleave Heap

structure Node (T : Type) where
  mutex : Option T
  val : ℤ
  next : Option Addr
  deriving DecidableEq, Repr

/-- the field of `list_t` and the memory the nodes live in -/
structure State (T : Type) where
  head : Addr
  mem : Memory (Node T)

inductive Op where
  | insert (val : ℤ)
  | delete (val : ℤ)
  deriving DecidableEq, Repr

inductive Event (T : Type) where
  /-- the operation has locked the head node's mutex -/
  | locked (t : T) (op : Op)
  /-- `malloc` has returned NULL in `list_insert` -/
  | failed (t : T) (val : ℤ)
  deriving DecidableEq, Repr

/-! ## The sequential list -/

def Op.apply : Op → List ℤ → List ℤ
  | .insert v, vs => v :: vs
  | .delete v, vs => vs.erase v

def Event.apply {T : Type} : Event T → List ℤ → List ℤ
  | .locked _ op, vs => op.apply vs
  | .failed _ _, vs => vs

/-- the operations one after another, from the empty list -/
def sequential {T : Type} (tr : List (Event T)) : List ℤ := tr.foldl (fun vs e => e.apply vs) []

/-! ## The code -/

variable {T : Type}

def State.node (x : State T) (a : Addr) : Node T := x.mem.cell a

/-- a write to the node at `a` -/
def State.store (x : State T) (a : Addr) (f : Node T → Node T) : State T := { x with mem := modify x.mem a f }

@[simp] theorem store_head (x : State T) (a : Addr) (f : Node T → Node T) : (x.store a f).head = x.head := rfl

@[simp] theorem node_store_self (x : State T) (a : Addr) (f : Node T → Node T) :
    (x.store a f).node a = f (x.node a) := by
  simp [State.node, State.store]

@[simp] theorem node_store_other (x : State T) {a b : Addr} (f : Node T → Node T) (h : b ≠ a) :
    (x.store a f).node b = x.node b := by
  simp [State.node, State.store, h]

theorem store_next (x : State T) (a b : Addr) (o : Option Addr) :
    ((x.store a fun n => { n with next := o }).node b).val = (x.node b).val ∧
    ((x.store a fun n => { n with next := o }).node b).mutex = (x.node b).mutex := by
  by_cases h : b = a
  · subst h; simp
  · simp [h]

theorem store_mutex (x : State T) (a b : Addr) (m : Option T) :
    ((x.store a fun n => { n with mutex := m }).node b).val = (x.node b).val ∧
    ((x.store a fun n => { n with mutex := m }).node b).next = (x.node b).next := by
  by_cases h : b = a
  · subst h; simp
  · simp [h]

def State.lock (x : State T) (t : T) (a : Addr) : Option (State T) :=
  match (x.node a).mutex with
  | none => some (x.store a fun n => { n with mutex := some t })
  | some _ => none

theorem lock_eq_some {x x' : State T} {t : T} {a : Addr} :
    x.lock t a = some x' ↔ (x.node a).mutex = none ∧ x' = x.store a fun n => { n with mutex := some t } := by
  unfold State.lock
  split
  · rename_i h
    simp [h, eq_comm]
  · rename_i h
    simp [h]

def State.unlock (x : State T) (a : Addr) : State T := x.store a fun n => { n with mutex := none }

/-- `list_init`: `a` is the address that `malloc` returns, `cell` what the memory contains before -/
def listInit (cell : Addr → Node T) (a : Addr) : State T :=
  ⟨a, modify (modify (alloc (empty cell) a) a fun n => { n with next := none }) a fun n => { n with mutex := none }⟩

/-- points of `list_insert` -/
inductive InsertPc where
  | malloc
  | storeVal (new : Addr)
  | storeNull (new : Addr)
  | mutexInit (new : Addr)
  | loadHead (new : Addr)
  | lockPrev (new prev : Addr)
  | loadCurr (new prev : Addr)
  | lockCurr (new prev curr : Addr)
  | storePrevNext (new prev : Addr) (curr : Option Addr)
  | storeNewNext (new prev : Addr) (curr : Option Addr)
  | unlockCurr (prev curr : Addr)
  | unlockPrev (prev : Addr)
  deriving DecidableEq, Repr

def listInsert (t : T) (val : ℤ) (c : Alloc (Node T)) (x : State T) :
    InsertPc → Option (State T × Option InsertPc × List (Event T))
  | .malloc =>
    match Heap.malloc c x.mem with
    | none => none
    | some (_, none) => some (x, none, [.failed t val])
    | some (mem, some new) => some ({ x with mem := mem }, some (.storeVal new), [])
  | .storeVal new => some (x.store new fun n => { n with val := val }, some (.storeNull new), [])
  | .storeNull new => some (x.store new fun n => { n with next := none }, some (.mutexInit new), [])
  | .mutexInit new => some (x.store new fun n => { n with mutex := none }, some (.loadHead new), [])
  | .loadHead new => some (x, some (.lockPrev new x.head), [])
  | .lockPrev new prev => (x.lock t prev).map fun x => (x, some (.loadCurr new prev), [.locked t (.insert val)])
  | .loadCurr new prev =>
    match (x.node prev).next with
    | some curr => some (x, some (.lockCurr new prev curr), [])
    | none => some (x, some (.storePrevNext new prev none), [])
  | .lockCurr new prev curr => (x.lock t curr).map fun x => (x, some (.storePrevNext new prev (some curr)), [])
  | .storePrevNext new prev curr =>
    some (x.store prev fun n => { n with next := some new }, some (.storeNewNext new prev curr), [])
  | .storeNewNext new prev curr =>
    match curr with
    | some a => some (x.store new fun n => { n with next := curr }, some (.unlockCurr prev a), [])
    | none => some (x.store new fun n => { n with next := curr }, some (.unlockPrev prev), [])
  | .unlockCurr prev curr => some (x.unlock curr, some (.unlockPrev prev), [])
  | .unlockPrev prev => some (x.unlock prev, none, [])

/-- points of `list_delete`. The lines before the loop and the end of a pass both load `curr` from the node that `prev`
is then and lock it: the same two points here. The loop ends with `curr` NULL, so the last `if` is never taken. -/
inductive DeletePc where
  | loadHead
  | lockPrev (prev : Addr)
  | loadCurr (prev : Addr)
  | lockCurr (prev curr : Addr)
  | testVal (prev curr : Addr)
  | loadNext (prev curr : Addr)
  | storePrevNext (prev curr : Addr) (next : Option Addr)
  | unlockPrev (prev curr : Addr)
  | destroy (curr : Addr)
  | free (curr : Addr)
  | passPrev (prev curr : Addr)
  | unlockEnd (prev : Addr)
  deriving DecidableEq, Repr

def listDelete (t : T) (val : ℤ) (c : Alloc (Node T)) (x : State T) :
    DeletePc → Option (State T × Option DeletePc × List (Event T))
  | .loadHead => some (x, some (.lockPrev x.head), [])
  | .lockPrev prev => (x.lock t prev).map fun x => (x, some (.loadCurr prev), [.locked t (.delete val)])
  | .loadCurr prev =>
    match (x.node prev).next with
    | some curr => some (x, some (.lockCurr prev curr), [])
    | none => some (x, some (.unlockEnd prev), [])
  | .lockCurr prev curr => (x.lock t curr).map fun x => (x, some (.testVal prev curr), [])
  | .testVal prev curr =>
    if (x.node curr).val = val then some (x, some (.loadNext prev curr), [])
    else some (x, some (.passPrev prev curr), [])
  | .loadNext prev curr => some (x, some (.storePrevNext prev curr (x.node curr).next), [])
  | .storePrevNext prev curr next =>
    some (x.store prev fun n => { n with next := next }, some (.unlockPrev prev curr), [])
  | .unlockPrev prev curr => some (x.unlock prev, some (.destroy curr), [])
  -- pthread_mutex_destroy: the code does not read the mutex again
  | .destroy curr => some (x, some (.free curr), [])
  | .free curr => some ({ x with mem := Heap.free c x.mem curr }, none, [])
  -- prev = curr
  | .passPrev prev curr => some (x.unlock prev, some (.loadCurr curr), [])
  | .unlockEnd prev => some (x.unlock prev, none, [])

/-! ## The threads -/

/-- an operation in progress -/
inductive Running where
  | insert (val : ℤ) (p : InsertPc)
  | delete (val : ℤ) (p : DeletePc)
  deriving DecidableEq, Repr

def Op.begin : Op → Running
  | .insert v => .insert v .malloc
  | .delete v => .delete v .loadHead

/-- what a thread does now, and the operations it has still to run -/
structure Local where
  run : Option Running
  todo : List Op
  deriving DecidableEq, Repr

def runStep (t : T) (c : Alloc (Node T)) (x : State T) :
    Running → Option (State T × Option Running × List (Event T))
  | .insert v p => (listInsert t v c x p).map fun r => (r.1, r.2.1.map (.insert v), r.2.2)
  | .delete v p => (listDelete t v c x p).map fun r => (r.1, r.2.1.map (.delete v), r.2.2)

def prog : Prog T (Alloc (Node T)) (State T) Local (Event T) := fun t c x l =>
  match l.run with
  | some r => (runStep t c x r).map fun q => (q.1, { l with run := q.2.1 }, q.2.2)
  | none =>
    match l.todo with
    | [] => none
    | op :: ops => some (x, ⟨some op.begin, ops⟩, [])

abbrev Global (T : Type) := St T (State T) Local

def start (cell : Addr → Node T) (a : Addr) (ops : T → List Op) : Global T :=
  ⟨listInit cell a, fun t => ⟨none, ops t⟩⟩

/-- `vs` are the values linked from `head->next` -/
def Linked (x : State T) (vs : List ℤ) : Prop :=
  ∃ L, Chain (fun a => (x.node a).next) (x.node x.head).next L ∧ L.map (fun a => (x.node a).val) = vs

/-- the operations of thread `t` in the order of their events -/
def opsBy [DecidableEq T] (t : T) (tr : List (Event T)) : List Op :=
  tr.filterMap fun
    | .locked u op => if u = t then some op else none
    | .failed u v => if u = t then some (.insert v) else none

end OsPractice.LockCoupling
