/-
The test program of `lock_coupling.c`: `main` creates the threads that insert the values of their ranges, joins them,
prints the list and frees it.

The process is `main` (thread `none`) together with the threads of `insert_list_from_to`; a thread runs only after it
has been created and until it has exited, and a join waits for the exit. Up to the last join `main` does not touch the
list, so seen without it a run is one of `LockCoupling` in which each thread inserts the values of its range (`Runs`).
After the last join no thread is left, and `list_print` and `list_free` walk the nodes that are then linked (`At`).

The list starts as `list_init` leaves it, and every `pthread_create` succeeds.

Result: `run_reached`, from which `LockCouplingMainEnd` reads what the program prints and frees.
-/
import OsPractice.Concurrency.LockCouplingMemory
import OsPractice.Concurrency.LockCouplingPrint

namespace OsPractice.LockCouplingMain

open Interleave Heap LockCoupling
open LockCouplingPrint (PrintPc Output listPrint state_ext)

/-! ## Model -/

/-- `range_t` -/
structure Range where
  a : ℤ
  b : ℤ
  deriving DecidableEq, Repr

/-- the range that `test_for_insert` gives to the thread `i` -/
def rangeOf (i : ℕ) : Range := ⟨i * 10, (i + 1) * 10 - 1⟩

/-- the threads of the process: `none` is `main` -/
abbrev Thread (numThreads : ℕ) : Type := Option (Fin numThreads)

/-- points of `list_free`; the test of the loop is part of the step that sets `curr` -/
inductive FreePc where
  | loadHead
  | loadNext (curr : Addr)
  | destroy (temp : Addr) (curr : Option Addr)
  | free (temp : Addr) (curr : Option Addr)
  deriving DecidableEq, Repr

inductive MainPoint where
  | create (i : ℕ)
  | join (i : ℕ)
  | print (p : PrintPc)
  | newline
  | free (p : FreePc)
  | returned
  deriving DecidableEq, Repr

inductive MainEvent (T : Type) where
  | list (e : Output T)
  | newline
  | freed (a : Addr)
  deriving DecidableEq, Repr

/-- the list, and what the thread library knows of each thread -/
structure Process (numThreads : ℕ) where
  list : State (Thread numThreads)
  created : Fin numThreads → Bool
  exited : Fin numThreads → Bool

/-- the variables of `insert_list_from_to`, and the point of `list_insert` when the thread is there -/
structure Worker where
  range : Range
  i : ℤ
  insert : Option InsertPc
  deriving DecidableEq, Repr

inductive Loc where
  | main (p : MainPoint)
  | worker (l : Worker)
  deriving DecidableEq, Repr

variable {n : ℕ}

def listFree (c : Alloc (Node (Thread n))) (x : State (Thread n)) :
    FreePc → State (Thread n) × Option FreePc × List (MainEvent (Thread n))
  | .loadHead => (x, some (.loadNext x.head), [])
  -- temp = curr; curr = curr->next
  | .loadNext curr => (x, some (.destroy curr (x.node curr).next), [])
  -- pthread_mutex_destroy: the code does not read the mutex again
  | .destroy temp curr => (x, some (.free temp curr), [])
  | .free temp curr => ({ x with mem := Heap.free c x.mem temp }, curr.map .loadNext, [.freed temp])

def insertListFromTo (t : Fin n) (c : Alloc (Node (Thread n))) (sh : Process n) (l : Worker) :
    Option (Process n × Worker × List (MainEvent (Thread n))) :=
  match l.insert with
  | some p => (listInsert (some t) l.i c sh.list p).map fun r => ({ sh with list := r.1 },
      match r.2.1 with
      | some q => { l with insert := some q }
      | none => { l with i := l.i + 1, insert := none },
      r.2.2.map fun e => .list (.list e))
  | none =>
    if l.i ≤ l.range.b then some (sh, { l with insert := some .malloc }, [])
    else some ({ sh with exited := Function.update sh.exited t true }, l, [])

def main (c : Alloc (Node (Thread n))) (sh : Process n) :
    MainPoint → Option (Process n × MainPoint × List (MainEvent (Thread n)))
  | .create i =>
    if h : i < n then some ({ sh with created := Function.update sh.created ⟨i, h⟩ true }, .create (i + 1), [])
    else some (sh, .join 0, [])
  | .join i =>
    if h : i < n then
      if sh.exited ⟨i, h⟩ then some (sh, .join (i + 1), []) else none
    else some (sh, .print .loadHead, [])
  | .print p => (listPrint none sh.list p).map fun r => ({ sh with list := r.1 },
      match r.2.1 with
      | some q => .print q
      | none => .newline,
      r.2.2.map .list)
  | .newline => some (sh, .free .loadHead, [.newline])
  | .free p =>
    let r := listFree c sh.list p
    some ({ sh with list := r.1 },
      match r.2.1 with
      | some q => .free q
      | none => .returned,
      r.2.2)
  | .returned => none

def program : Prog (Thread n) (Alloc (Node (Thread n))) (Process n) Loc (MainEvent (Thread n)) := fun t c sh l =>
  match t, l with
  | none, .main p => (main c sh p).map fun r => (r.1, .main r.2.1, r.2.2)
  | some t, .worker l =>
    if sh.created t && !sh.exited t then
      (insertListFromTo t c sh l).map fun r => (r.1, .worker r.2.1, r.2.2)
    else none
  | _, _ => none

/-- the process after `list_init` -/
def programStart (n : ℕ) (cell : Addr → Node (Thread n)) (a : Addr) : St (Thread n) (Process n) Loc :=
  ⟨⟨listInit cell a, fun _ => false, fun _ => false⟩, fun
    | none => .main (.create 0)
    | some t => .worker ⟨rangeOf t, (rangeOf t).a, none⟩⟩

/-! ## What a run shows -/

variable {T : Type}

/-- the locks of the head node and the failures of `malloc` -/
def listEvents (tr : List (MainEvent T)) : List (LockCoupling.Event T) :=
  tr.filterMap fun
    | .list (.list e) => some e
    | _ => none

/-- the values that `list_print` has printed -/
def printed (tr : List (MainEvent T)) : List ℤ :=
  tr.filterMap fun
    | .list (.printed _ v) => some v
    | _ => none

/-- the nodes that `list_free` has freed -/
def freed (tr : List (MainEvent T)) : List Addr :=
  tr.filterMap fun
    | .freed a => some a
    | _ => none

@[simp] theorem listEvents_append (tr es : List (MainEvent T)) :
    listEvents (tr ++ es) = listEvents tr ++ listEvents es := List.filterMap_append

@[simp] theorem printed_append (tr es : List (MainEvent T)) : printed (tr ++ es) = printed tr ++ printed es :=
  List.filterMap_append

@[simp] theorem freed_append (tr es : List (MainEvent T)) : freed (tr ++ es) = freed tr ++ freed es :=
  List.filterMap_append

@[simp] theorem listEvents_map (es : List (LockCoupling.Event T)) :
    listEvents (es.map fun e => .list (.list e)) = es := by
  simp [listEvents, List.filterMap_map]

@[simp] theorem printed_map (es : List (LockCoupling.Event T)) : printed (es.map fun e => .list (.list e)) = [] := by
  simp [printed, List.filterMap_map]

@[simp] theorem freed_map (es : List (LockCoupling.Event T)) : freed (es.map fun e => .list (.list e)) = [] := by
  simp [freed, List.filterMap_map]

/-! ## The threads without `main` -/

/-- the values of the loop `for (i = a; i <= b; ++i)` -/
def rangeValues (r : Range) : List ℤ := (List.range (r.b + 1 - r.a).toNat).map fun k : ℕ => r.a + k

theorem rangeValues_cons {a b : ℤ} (h : a ≤ b) : rangeValues ⟨a, b⟩ = a :: rangeValues ⟨a + 1, b⟩ := by
  have hlen : (b + 1 - a).toNat = (b + 1 - (a + 1)).toNat + 1 := by omega
  simp only [rangeValues, hlen, List.range_succ_eq_map, List.map_cons, List.map_map, Nat.cast_zero, add_zero]
  congr 1
  refine List.map_congr_left fun (k : ℕ) _ => ?_
  simp only [Function.comp_apply]
  push_cast
  ring

theorem rangeValues_nil {a b : ℤ} (h : b < a) : rangeValues ⟨a, b⟩ = [] := by
  have hlen : (b + 1 - a).toNat = 0 := by omega
  simp [rangeValues, hlen]

theorem mem_rangeValues {r : Range} {v : ℤ} : v ∈ rangeValues r ↔ r.a ≤ v ∧ v ≤ r.b := by
  simp only [rangeValues, List.mem_map, List.mem_range]
  refine ⟨?_, fun h => ⟨(v - r.a).toNat, by omega, by omega⟩⟩
  rintro ⟨k, hk, rfl⟩
  omega

theorem rangeValues_nodup (r : Range) : (rangeValues r).Nodup :=
  List.nodup_range.map fun i j (h : r.a + (i : ℤ) = r.a + j) => by omega

/-- what a thread has still to do, as a thread of `LockCoupling` -/
def Worker.toLocal (l : Worker) : LockCoupling.Local :=
  match l.insert with
  | some p => ⟨some (.insert l.i p), (rangeValues ⟨l.i + 1, l.range.b⟩).map .insert⟩
  | none => ⟨none, (rangeValues ⟨l.i, l.range.b⟩).map .insert⟩

/-- the operations of the threads -/
def opsOf : Thread n → List Op
  | none => []
  | some t => (rangeValues (rangeOf t)).map .insert

/-- the threads that `main` has joined -/
def Joined : MainPoint → Fin n → Prop
  | .create _, _ => False
  | .join i, t => t.val < i
  | _, _ => True

/-- the threads of the process `s` are those of `u` -/
structure Runs (s : St (Thread n) (Process n) Loc) (u : LockCoupling.Global (Thread n)) : Prop where
  main : u.loc none = ⟨none, []⟩
  loc : ∀ t, ∃ l, s.loc (some t) = .worker l ∧ u.loc (some t) = l.toLocal
  exited : ∀ t, s.sh.exited t = true → u.loc (some t) = ⟨none, []⟩

/-- a step of a thread is one of `LockCoupling`, or its exit -/
theorem thread_step {t : Fin n} {c : Alloc (Node (Thread n))} {sh sh' : Process n} {l l' : Worker}
    {es : List (MainEvent (Thread n))} (h : insertListFromTo t c sh l = some (sh', l', es)) :
    sh'.created = sh.created ∧ printed es = [] ∧ freed es = [] ∧
    ((LockCoupling.prog (some t) c sh.list l.toLocal = some (sh'.list, l'.toLocal, listEvents es) ∧
        sh'.exited = sh.exited) ∨
      (l.toLocal = ⟨none, []⟩ ∧ l' = l ∧ sh'.list = sh.list ∧ es = [] ∧
        sh'.exited = Function.update sh.exited t true)) := by
  unfold insertListFromTo at h
  split at h
  · rename_i p hp
    obtain ⟨⟨x, q, es'⟩, hq, he⟩ := Option.map_eq_some_iff.1 h
    cases he
    refine ⟨rfl, by simp, by simp, .inl ⟨?_, rfl⟩⟩
    have hl : l.toLocal = ⟨some (.insert l.i p), (rangeValues ⟨l.i + 1, l.range.b⟩).map .insert⟩ := by
      simp [Worker.toLocal, hp]
    rw [hl, listEvents_map]
    cases q <;> simp [LockCoupling.prog, runStep, hq, Worker.toLocal]
  · rename_i hp
    have hl : l.toLocal = ⟨none, (rangeValues ⟨l.i, l.range.b⟩).map .insert⟩ := by
      simp [Worker.toLocal, hp]
    split_ifs at h with hi
    · cases h
      refine ⟨rfl, rfl, rfl, .inl ⟨?_, rfl⟩⟩
      rw [hl, rangeValues_cons hi]
      rfl
    · cases h
      refine ⟨rfl, rfl, rfl, .inr ⟨?_, rfl, rfl, rfl, rfl⟩⟩
      rw [hl, rangeValues_nil (by omega)]
      rfl

/-- `main` creates and joins, and does not touch the list -/
theorem main_create_join {c : Alloc (Node (Thread n))} {sh sh' : Process n} {p p' : MainPoint}
    {es : List (MainEvent (Thread n))} (hp : (∃ i, p = .create i) ∨ ∃ i, p = .join i)
    (h : main c sh p = some (sh', p', es)) :
    sh'.list = sh.list ∧ sh'.exited = sh.exited ∧ es = [] ∧
      ((∃ i, p' = .create i) ∨ (∃ i, p' = .join i) ∨ p' = .print .loadHead) ∧
      ((∀ t, Joined p t → sh.exited t = true) → ∀ t, Joined p' t → sh.exited t = true) := by
  rcases hp with ⟨i, rfl⟩ | ⟨i, rfl⟩
  · simp only [main] at h
    split_ifs at h with hi
    · cases h
      exact ⟨rfl, rfl, rfl, .inl ⟨_, rfl⟩, fun _ t ht => (by cases ht)⟩
    · cases h
      exact ⟨rfl, rfl, rfl, .inr (.inl ⟨_, rfl⟩), fun _ t ht => absurd ht (Nat.not_lt_zero _)⟩
  · simp only [main] at h
    split_ifs at h with hi he
    · cases h
      refine ⟨rfl, rfl, rfl, .inr (.inl ⟨_, rfl⟩), ?_⟩
      intro hj t ht
      rcases Nat.lt_succ_iff_lt_or_eq.1 ht with h1 | h1
      · exact hj t h1
      · have h2 : t = ⟨i, hi⟩ := Fin.ext h1
        rw [h2]
        exact he
    · cases h
      refine ⟨rfl, rfl, rfl, .inr (.inr rfl), ?_⟩
      intro hj t _
      exact hj t (by have := t.isLt; simp only [Joined]; omega)

/-! ## The list after the last join -/

/-- the list with nothing in progress: its nodes are `A`, and its values `vs` -/
structure Complete (x : State T) (A : List Addr) (vs : List ℤ) : Prop where
  chain : Chain (fun a => (x.node a).next) (some x.head) A
  vals : A.map (fun a => (x.node a).val) = (x.node x.head).val :: vs
  live : ∀ a, x.mem.live a = true ↔ a ∈ A
  mutex : ∀ a ∈ A, (x.node a).mutex = none

/-- what `list_print` and `list_free` have done so far, and what they find; `x₀` is the list as the threads left it -/
def At (x₀ x : State T) (A : List Addr) (vs ps : List ℤ) (fs : List Addr) (me : T) : MainPoint → Prop
  | .print .loadHead => x = x₀ ∧ fs = [] ∧ ps = []
  | .print (.loadFirst head) => x = x₀ ∧ fs = [] ∧ ps = [] ∧ head = x₀.head
  | .print (.lock curr) => x = x₀ ∧ fs = [] ∧
    ∃ L rest, A = L ++ curr :: rest ∧ L.map (fun a => (x₀.node a).val) = (x₀.node x₀.head).val :: ps
  | .print (.printVal curr) => x = x₀.store curr (fun m => { m with mutex := some me }) ∧ fs = [] ∧
    ∃ L rest, A = L ++ curr :: rest ∧ L.map (fun a => (x₀.node a).val) = (x₀.node x₀.head).val :: ps
  | .print (.loadNext curr) => x = x₀.store curr (fun m => { m with mutex := some me }) ∧ fs = [] ∧
    ∃ L rest, A = L ++ curr :: rest ∧
      (L ++ [curr]).map (fun a => (x₀.node a).val) = (x₀.node x₀.head).val :: ps
  | .print (.unlock temp curr) => x = x₀.store temp (fun m => { m with mutex := some me }) ∧ fs = [] ∧
    ∃ L rest, A = L ++ temp :: rest ∧ (x₀.node temp).next = curr ∧
      (L ++ [temp]).map (fun a => (x₀.node a).val) = (x₀.node x₀.head).val :: ps
  | .newline => x = x₀ ∧ fs = [] ∧ ps = vs
  | .free .loadHead => x = x₀ ∧ fs = [] ∧ ps = vs
  | .free (.loadNext curr) => ps = vs ∧ (∀ a, x.mem.live a = true ↔ a ∈ A ∧ a ∉ fs) ∧
    (∀ a ∈ A, a ∉ fs → x.node a = x₀.node a) ∧ ∃ rest, A = fs ++ curr :: rest
  | .free (.destroy temp curr) => ps = vs ∧ (∀ a, x.mem.live a = true ↔ a ∈ A ∧ a ∉ fs) ∧
    (∀ a ∈ A, a ∉ fs → x.node a = x₀.node a) ∧ ∃ rest, A = fs ++ temp :: rest ∧ (x₀.node temp).next = curr
  | .free (.free temp curr) => ps = vs ∧ (∀ a, x.mem.live a = true ↔ a ∈ A ∧ a ∉ fs) ∧
    (∀ a ∈ A, a ∉ fs → x.node a = x₀.node a) ∧ ∃ rest, A = fs ++ temp :: rest ∧ (x₀.node temp).next = curr
  | .returned => ps = vs ∧ (∀ a, x.mem.live a = false) ∧ fs = A
  | _ => False

section After

variable {x₀ x : State T} {A L rest fs : List Addr} {vs ps : List ℤ} {a : Addr} {o : Option Addr} {me : T}

theorem unlock_locked (h : (x₀.node a).mutex = none) :
    (x₀.store a fun m => { m with mutex := some me }).unlock a = x₀ := by
  refine state_ext rfl (fun b => ?_) rfl
  by_cases hb : b = a
  · subst hb
    simp only [State.unlock, node_store_self, ← h]
  · rw [State.unlock, node_store_other _ _ hb, node_store_other _ _ hb]

theorem Complete.next_some (h : Complete x₀ A vs) (hA : A = L ++ a :: rest) {b : Addr}
    (hb : (x₀.node a).next = some b) : ∃ rest', A = (L ++ [a]) ++ b :: rest' := by
  have hchain := h.chain
  rw [hA] at hchain
  have hs := hchain.suffix
  rw [hb] at hs
  cases rest with
  | nil => cases hs
  | cons b' rest' =>
    obtain rfl : b = b' := Option.some.inj hs.1
    exact ⟨rest', by rw [hA, List.append_assoc]; rfl⟩

theorem Complete.next_none (h : Complete x₀ A vs) (hA : A = L ++ a :: rest) (hb : (x₀.node a).next = none) :
    A = L ++ [a] := by
  have hchain := h.chain
  rw [hA] at hchain
  have hs := hchain.suffix
  rw [hb] at hs
  cases rest with
  | nil => exact hA
  | cons b' rest' => cases hs.1

theorem Complete.head (h : Complete x₀ A vs) : ∃ rest, A = [] ++ x₀.head :: rest := by
  have hchain := h.chain
  cases A with
  | nil => cases hchain
  | cons b rest =>
    obtain rfl : x₀.head = b := Option.some.inj hchain.1
    exact ⟨rest, rfl⟩

theorem Complete.notMem (h : Complete x₀ A vs) (hA : A = fs ++ a :: rest) : a ∈ A ∧ a ∉ fs := by
  have hnd := h.chain.nodup
  subst hA
  refine ⟨by simp, fun ha => ?_⟩
  exact (List.nodup_append.1 hnd).2.2 a ha a List.mem_cons_self rfl

/-- `list_print` goes to the next node, or ends with the last one -/
theorem At.next (h : Complete x₀ A vs) (hA : A = L ++ a :: rest)
    (hps : (L ++ [a]).map (fun b => (x₀.node b).val) = (x₀.node x₀.head).val :: ps) :
    At x₀ x₀ A vs ps [] me
      (match (x₀.node a).next.map PrintPc.lock with
      | some q => .print q
      | none => .newline) := by
  cases hb : (x₀.node a).next with
  | some b =>
    obtain ⟨rest', hA'⟩ := h.next_some hA hb
    exact ⟨rfl, rfl, _, rest', hA', hps⟩
  | none =>
    refine ⟨rfl, rfl, ?_⟩
    have hvals := h.vals
    rw [h.next_none hA hb, hps] at hvals
    exact (List.cons.inj hvals).2

end After

theorem main_after {c : Alloc (Node (Thread n))} {sh sh' : Process n} {p p' : MainPoint}
    {es : List (MainEvent (Thread n))} {x₀ : State (Thread n)} {A fs : List Addr} {vs ps : List ℤ}
    (hC : Complete x₀ A vs) (hat : At x₀ sh.list A vs ps fs none p) (h : main c sh p = some (sh', p', es)) :
    sh'.exited = sh.exited ∧ listEvents es = [] ∧
      At x₀ sh'.list A vs (ps ++ printed es) (fs ++ freed es) none p' := by
  cases p with
  | create i => cases hat
  | join i => cases hat
  | returned => cases h
  | newline =>
    obtain ⟨hx, hfs, hps⟩ := hat
    cases h
    exact ⟨rfl, rfl, hx, by simp [hfs, freed], by simp [hps, printed]⟩
  | print p =>
    obtain ⟨⟨x, q, es'⟩, hq, he⟩ := Option.map_eq_some_iff.1 h
    cases he
    refine ⟨rfl, ?_, ?_⟩
    · cases p with
      | lock curr =>
        obtain ⟨y, -, he⟩ := Option.map_eq_some_iff.1 hq
        cases he
        rfl
      | _ => cases hq; rfl
    · cases p with
      | loadHead =>
        obtain ⟨hx, rfl, rfl⟩ := hat
        cases hq
        exact ⟨hx, rfl, rfl, by rw [hx]⟩
      | loadFirst head =>
        obtain ⟨hx, rfl, rfl, rfl⟩ := hat
        cases hq
        obtain ⟨rest, hA⟩ := hC.head
        rw [hx]
        exact At.next hC hA rfl
      | lock curr =>
        obtain ⟨hx, rfl, hat⟩ := hat
        obtain ⟨y, hlock, he⟩ := Option.map_eq_some_iff.1 hq
        cases he
        obtain ⟨-, rfl⟩ := lock_eq_some.1 hlock
        exact ⟨by rw [hx], rfl, by simpa [printed] using hat⟩
      | printVal curr =>
        obtain ⟨hx, rfl, L, rest, hA, hps⟩ := hat
        cases hq
        refine ⟨hx, rfl, L, rest, hA, ?_⟩
        have hval : (sh.list.node curr).val = (x₀.node curr).val := by simp [hx]
        simp only [List.map_append, hps, List.map_cons, List.map_nil, hval]
        rfl
      | loadNext curr =>
        obtain ⟨hx, rfl, L, rest, hA, hps⟩ := hat
        cases hq
        exact ⟨hx, rfl, L, rest, hA, by simp [hx], by simpa [printed] using hps⟩
      | unlock temp curr =>
        obtain ⟨hx, rfl, L, rest, hA, rfl, hps⟩ := hat
        cases hq
        have hmem : temp ∈ A := by simp [hA]
        rw [hx, unlock_locked (hC.mutex temp hmem)]
        simpa [printed, freed] using At.next hC hA hps
  | free p =>
    cases h
    refine ⟨rfl, by cases p <;> rfl, ?_⟩
    cases p with
    | loadHead =>
      obtain ⟨hx, rfl, rfl⟩ := hat
      obtain ⟨rest, hA⟩ := hC.head
      simp only [listFree, hx]
      exact ⟨by simp [printed], by simpa [freed] using hC.live, fun _ _ _ => rfl, rest, hA⟩
    | loadNext curr =>
      obtain ⟨rfl, hlive, hnode, rest, hA⟩ := hat
      obtain ⟨hmem, hnot⟩ := hC.notMem hA
      simp only [listFree, hnode curr hmem hnot]
      exact ⟨by simp [printed], by simpa [freed] using hlive, by simpa [freed] using hnode, rest,
        by simpa [freed] using hA, rfl⟩
    | destroy temp curr =>
      obtain ⟨rfl, hlive, hnode, rest, hA, hcurr⟩ := hat
      exact ⟨by simp [printed, listFree], by simpa [freed, listFree] using hlive,
        by simpa [freed, listFree] using hnode, rest, by simpa [freed, listFree] using hA, hcurr⟩
    | free temp curr =>
      obtain ⟨rfl, hlive, hnode, rest, hA, rfl⟩ := hat
      have hlive' : ∀ a, (Heap.free c sh.list.mem temp).live a = true ↔ a ∈ A ∧ a ∉ fs ++ [temp] := by
        intro a
        by_cases ha : a = temp
        · simp [Heap.free, ha]
        · rw [free_live_other c _ ha, hlive a]
          simp [ha]
      have hnode' : ∀ a ∈ A, a ∉ fs ++ [temp] →
          State.node { sh.list with mem := Heap.free c sh.list.mem temp } a = x₀.node a := by
        intro a ha hno
        simp only [List.mem_append, List.mem_singleton, not_or] at hno
        exact (free_other c sh.list.mem hno.2).trans (hnode a ha hno.1)
      cases hb : (x₀.node temp).next with
      | some b =>
        exact ⟨by simp [printed, listFree], hlive', hnode', hC.next_some hA hb⟩
      | none =>
        have hall := hC.next_none hA hb
        refine ⟨by simp [printed, listFree], fun a => ?_, hall.symm⟩
        refine Bool.eq_false_iff.2 fun ha => ?_
        obtain ⟨h1, h2⟩ := (hlive' a).1 ha
        exact h2 (hall ▸ h1)

/-! ## Runs -/

/-- the threads that `main` has created -/
def Created : MainPoint → Fin n → Prop
  | .create i, t => t.val < i
  | _, _ => True

/-- the process has come to `s` with `main` at `p`, its threads to `u` -/
structure Reached (cell : Addr → Node (Thread n)) (a : Addr) (tr : List (MainEvent (Thread n)))
    (s : St (Thread n) (Process n) Loc) (p : MainPoint) (u : LockCoupling.Global (Thread n)) : Prop where
  main : s.loc none = .main p
  created : ∀ t, Created p t → s.sh.created t = true
  joined : ∀ t, Joined p t → s.sh.exited t = true
  run : ∃ as, Run LockCoupling.prog (LockCoupling.start cell a opsOf) as (listEvents tr) u
  threads : Runs s u
  phase : (((∃ i, p = .create i) ∨ ∃ i, p = .join i) ∧ s.sh.list = u.sh ∧ printed tr = [] ∧ freed tr = []) ∨
    ((∀ t : Fin n, Joined p t) ∧ ∃ A, Complete u.sh A (sequential (listEvents tr)) ∧
      At u.sh s.sh.list A (sequential (listEvents tr)) (printed tr) (freed tr) none p)

section Runs

variable {cell : Addr → Node (Thread n)} {a : Addr} {tr : List (MainEvent (Thread n))}
  {s : St (Thread n) (Process n) Loc} {u : LockCoupling.Global (Thread n)} {p : MainPoint}

theorem complete_of_idle {as : List (Thread n × Alloc (Node (Thread n)))} {es : List (LockCoupling.Event (Thread n))}
    (h : Run LockCoupling.prog (LockCoupling.start cell a opsOf) as es u) (hidle : ∀ t, (u.loc t).run = none) :
    ∃ A, Complete u.sh A (sequential es) := by
  obtain ⟨g, hi, hacc⟩ := run_accounted h
  rw [show running u = fun _ => none from funext hidle] at hi hacc
  obtain ⟨L, hL, hchain, hvals⟩ := hi.idle_nodes
  refine ⟨g.nodes, by rw [hL]; exact hchain, by rw [hL, List.map_cons, hvals], fun b => ?_, hi.unlocked⟩
  exact ⟨hacc.idle b, hi.live b⟩

theorem main_created {c : Alloc (Node (Thread n))} {sh sh' : Process n} {p p' : MainPoint}
    {es : List (MainEvent (Thread n))} (h : main c sh p = some (sh', p', es))
    (hc : ∀ t, Created p t → sh.created t = true) : ∀ t, Created p' t → sh'.created t = true := by
  cases p with
  | create i =>
    simp only [main] at h
    split_ifs at h with hi
    · cases h
      intro t ht
      by_cases hti : t = ⟨i, hi⟩
      · simp [hti]
      · have hlt : t.val < i := by
          have h1 : t.val ≠ i := fun he => hti (Fin.ext he)
          simp only [Created] at ht
          omega
        simpa [hti] using hc t hlt
    · cases h
      intro t _
      exact hc t (by have := t.isLt; simp only [Created]; omega)
  | join i =>
    simp only [main] at h
    split_ifs at h <;> cases h <;> exact fun t _ => hc t trivial
  | print p =>
    obtain ⟨r, -, he⟩ := Option.map_eq_some_iff.1 h
    cases he
    exact fun t _ => hc t trivial
  | newline => cases h; exact fun t _ => hc t trivial
  | free p => cases h; exact fun t _ => hc t trivial
  | returned => cases h

theorem Joined.all_of_after {x₀ x : State T} {A fs : List Addr} {vs ps : List ℤ} {me : T}
    (h : At x₀ x A vs ps fs me p) (t : Fin n) : Joined p t := by
  cases p <;> trivial

theorem reached_step (h : Reached cell a tr s p u) {t : Thread n} {c : Alloc (Node (Thread n))} {sh : Process n}
    {l : Loc} {es : List (MainEvent (Thread n))} (hs : program t c s.sh (s.loc t) = some (sh, l, es)) :
    ∃ p' u', Reached cell a (tr ++ es) (s.move t sh l) p' u' := by
  obtain ⟨as, hrun⟩ := h.run
  cases t with
  | none =>
    rw [h.main] at hs
    obtain ⟨⟨sh', p', es'⟩, hm, he⟩ := Option.map_eq_some_iff.1 hs
    cases he
    have hloc : ∀ t, (s.move none sh' (.main p')).loc (some t) = s.loc (some t) := fun t => by simp
    rcases h.phase with ⟨hp, hlist, hprinted, hfreed⟩ | ⟨hall, A, hC, hat⟩
    · obtain ⟨h1, h2, rfl, h4, h5⟩ := main_create_join hp hm
      have hjoin : ∀ t, Joined p' t → sh'.exited t = true := by
        rw [h2]
        exact h5 h.joined
      rw [List.append_nil]
      refine ⟨p', u, by simp, main_created hm h.created, hjoin, ⟨as, hrun⟩, ⟨h.threads.main, ?_, ?_⟩, ?_⟩
      · intro t
        rw [hloc]
        exact h.threads.loc t
      · intro t ht
        exact h.threads.exited t (by rw [← h2]; exact ht)
      · rcases h4 with h4 | h4 | rfl
        · exact .inl ⟨.inl h4, h1.trans hlist, hprinted, hfreed⟩
        · exact .inl ⟨.inr h4, h1.trans hlist, hprinted, hfreed⟩
        · -- the last join is behind `main`: every thread has exited
          have hidle : ∀ t, (u.loc t).run = none := by
            intro t
            cases t with
            | none => rw [h.threads.main]
            | some t => rw [h.threads.exited t (by rw [← h2]; exact hjoin t trivial)]
          obtain ⟨A, hC⟩ := complete_of_idle hrun hidle
          exact .inr ⟨fun _ => trivial, A, hC, h1.trans hlist, hfreed, hprinted⟩
    · obtain ⟨h1, h2, h3⟩ := main_after hC hat hm
      have hevents : listEvents (tr ++ es') = listEvents tr := by rw [listEvents_append, h2, List.append_nil]
      refine ⟨p', u, by simp, main_created hm h.created, ?_, ⟨as, by rw [hevents]; exact hrun⟩,
        ⟨h.threads.main, ?_, ?_⟩, .inr ⟨Joined.all_of_after h3, A, ?_⟩⟩
      · intro t _
        rw [St.move_sh, h1]
        exact h.joined t (hall t)
      · intro t
        rw [hloc]
        exact h.threads.loc t
      · intro t ht
        exact h.threads.exited t (by rw [← h1]; exact ht)
      · rw [hevents, printed_append, freed_append]
        exact ⟨hC, h3⟩
  | some t =>
    obtain ⟨l₀, hl₀, hu⟩ := h.threads.loc t
    simp only [program, hl₀] at hs
    split_ifs at hs with hc
    obtain ⟨⟨sh', l', es'⟩, hm, he⟩ := Option.map_eq_some_iff.1 hs
    cases he
    have hlive : s.sh.exited t = false := by simp_all
    have hnot : ¬ Joined p t := fun hj => by rw [h.joined t hj] at hlive; cases hlive
    obtain ⟨hp, hlist, hprinted, hfreed⟩ := h.phase.resolve_right fun hr => hnot (hr.1 t)
    obtain ⟨h1, h2, h3, h4⟩ := thread_step hm
    rcases h4 with ⟨hprog, hex⟩ | ⟨hidle, rfl, hl, rfl, hex⟩
    · rw [hlist, ← hu] at hprog
      refine ⟨p, _, by simpa using h.main, ?_, ?_, ⟨_, by rw [listEvents_append]; exact hrun.snoc hprog⟩,
        ⟨by simpa using h.threads.main, ?_, ?_⟩, .inl ⟨hp, rfl, ?_, ?_⟩⟩
      · intro v hv
        rw [St.move_sh, h1]
        exact h.created v hv
      · intro v hv
        rw [St.move_sh, hex]
        exact h.joined v hv
      · intro v
        by_cases hv : v = t
        · subst hv
          exact ⟨l', by simp, by simp⟩
        · simpa [hv] using h.threads.loc v
      · intro v hv
        rw [St.move_sh, hex] at hv
        have hne : v ≠ t := by
          rintro rfl
          rw [hlive] at hv
          cases hv
        simpa [hne] using h.threads.exited v hv
      · rw [printed_append, hprinted, h2, List.append_nil]
      · rw [freed_append, hfreed, h3, List.append_nil]
    · rw [List.append_nil]
      refine ⟨p, u, by simpa using h.main, ?_, ?_, ⟨as, hrun⟩, ⟨h.threads.main, ?_, ?_⟩,
        .inl ⟨hp, hl.trans hlist, hprinted, hfreed⟩⟩
      · intro v hv
        rw [St.move_sh, h1]
        exact h.created v hv
      · intro v hv
        rw [St.move_sh, hex]
        by_cases hvt : v = t
        · simp [hvt]
        · simpa [hvt] using h.joined v hv
      · intro v
        by_cases hv : v = t
        · subst hv
          exact ⟨l', by simp, hu⟩
        · simpa [hv] using h.threads.loc v
      · intro v hv
        rw [St.move_sh, hex] at hv
        by_cases hvt : v = t
        · rw [hvt, hu, hidle]
        · exact h.threads.exited v (by simpa [hvt] using hv)

theorem run_reached {as : List (Thread n × Alloc (Node (Thread n)))}
    (h : Run program (programStart n cell a) as tr s) : ∃ p u, Reached cell a tr s p u := by
  refine h.inv_trace (I := fun tr s => ∃ p u, Reached cell a tr s p u) ?_ ?_
  · refine ⟨.create 0, LockCoupling.start cell a opsOf, rfl, fun t ht => (by cases ht), fun t ht => (by cases ht),
      ⟨[], .nil⟩, ⟨rfl, fun t => ⟨_, rfl, ?_⟩, fun t ht => (by cases ht)⟩, .inl ⟨.inl ⟨0, rfl⟩, rfl, rfl, rfl⟩⟩
    simp [Worker.toLocal, LockCoupling.start, opsOf]
  · rintro tr s t c sh l es ⟨p, u, hr⟩ hs
    exact reached_step hr hs

end Runs

end OsPractice.LockCouplingMain
