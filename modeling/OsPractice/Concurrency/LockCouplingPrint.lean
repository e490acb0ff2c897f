/-
`list_print` (`lock_coupling.c`) beside `list_insert` and `list_delete`.

`list_print` reads `head->next` without a lock, and gives the lock of a node back before it takes that of the next one.
In between its `curr` points to a node that it does not hold, and a `list_delete` can unlink and free that node.

For an insert or a delete, a `list_print` in progress does nothing but hold a mutex. With the mutexes that are held in
this way taken as free (`State.mask`), the list is in the states of `LockCouplingInv`.

Results:
- `print_freed_two`: a `list_print` that goes on to a freed node;
- `print_safe`: as long as no `list_delete` frees the node that is `curr` of a `list_print`, every node that a
  `list_print` locks, reads or unlocks is allocated.
-/
import OsPractice.Concurrency.LockCouplingSerial

namespace OsPractice.LockCouplingPrint

open Interleave Heap LockCoupling

/-! ## Model -/

inductive Call where
  | op (o : Op)
  | print
  deriving DecidableEq, Repr

/-- points of `list_print`; the test of the loop is part of the step that sets `curr` -/
inductive PrintPc where
  | loadHead
  | loadFirst (head : Addr)
  | lock (curr : Addr)
  | printVal (curr : Addr)
  | loadNext (curr : Addr)
  | unlock (temp : Addr) (curr : Option Addr)
  deriving DecidableEq, Repr

inductive Output (T : Type) where
  | list (e : LockCoupling.Event T)
  | printed (t : T) (v : ℤ)
  deriving DecidableEq, Repr

variable {T : Type}

def listPrint (t : T) (x : State T) : PrintPc → Option (State T × Option PrintPc × List (Output T))
  | .loadHead => some (x, some (.loadFirst x.head), [])
  | .loadFirst head => some (x, (x.node head).next.map .lock, [])
  | .lock curr => (x.lock t curr).map fun x => (x, some (.printVal curr), [])
  | .printVal curr => some (x, some (.loadNext curr), [.printed t (x.node curr).val])
  -- temp = curr; curr = curr->next
  | .loadNext curr => some (x, some (.unlock curr (x.node curr).next), [])
  | .unlock temp curr => some (x.unlock temp, curr.map .lock, [])

inductive Activity where
  | op (r : Running)
  | print (p : PrintPc)
  deriving DecidableEq, Repr

structure Local where
  run : Option Activity
  todo : List Call
  deriving DecidableEq, Repr

def Call.begin : Call → Activity
  | .op o => .op o.begin
  | .print => .print .loadHead

def step (t : T) (c : Alloc (Node T)) (x : State T) : Activity → Option (State T × Option Activity × List (Output T))
  | .op r => (runStep t c x r).map fun q => (q.1, q.2.1.map .op, q.2.2.map .list)
  | .print p => (listPrint t x p).map fun q => (q.1, q.2.1.map .print, q.2.2)

def prog : Prog T (Alloc (Node T)) (State T) Local (Output T) := fun t c x l =>
  match l.run with
  | some a => (step t c x a).map fun q => (q.1, { l with run := q.2.1 }, q.2.2)
  | none =>
    match l.todo with
    | [] => none
    | call :: calls => some (x, ⟨some call.begin, calls⟩, [])

abbrev Global (T : Type) := St T (State T) Local

def start (cell : Addr → Node T) (a : Addr) (calls : T → List Call) : Global T :=
  ⟨listInit cell a, fun t => ⟨none, calls t⟩⟩

/-! ## Nodes and pointers of `list_print` -/

/-- the node that the next step of `list_print` locks, reads or unlocks -/
def touches : Option Activity → Option Addr
  | some (.print (.loadFirst head)) => some head
  | some (.print (.lock curr)) => some curr
  | some (.print (.printVal curr)) => some curr
  | some (.print (.loadNext curr)) => some curr
  | some (.print (.unlock temp _)) => some temp
  | _ => none

/-- its variable `curr` -/
def currOf : Option Activity → Option Addr
  | some (.print (.lock curr)) => some curr
  | some (.print (.printVal curr)) => some curr
  | some (.print (.loadNext curr)) => some curr
  | some (.print (.unlock _ curr)) => curr
  | _ => none

/-- the node whose mutex it holds -/
def held : Option Activity → Option Addr
  | some (.print (.printVal curr)) => some curr
  | some (.print (.loadNext curr)) => some curr
  | some (.print (.unlock temp _)) => some temp
  | _ => none

/-- the insert or delete of a thread -/
def opOf : Option Activity → Option Running
  | some (.op r) => some r
  | _ => none

/-- the step of `t` does not free the node that is `curr` of a `list_print` -/
def Spares (s : Global T) (t : T) (_ : Alloc (Node T)) : Prop :=
  ∀ a ∈ freeing (opOf (s.loc t).run), ∀ u, currOf (s.loc u).run ≠ some a

instance [Fintype T] (s : Global T) (t : T) (c : Alloc (Node T)) : Decidable (Spares s t c) := by
  unfold Spares
  infer_instance

/-! ## Mutexes held by `list_print` taken as free -/

theorem state_ext {x y : State T} (hh : x.head = y.head) (hn : ∀ a, x.node a = y.node a)
    (hl : x.mem.live = y.mem.live) : x = y := by
  obtain ⟨head, cell, live⟩ := x
  obtain ⟨head', cell', live'⟩ := y
  obtain rfl : head = head' := hh
  obtain rfl : live = live' := hl
  obtain rfl : cell = cell' := funext hn
  rfl

open Classical in
/-- the mutexes of the nodes in `H` taken as free -/
noncomputable def State.mask (H : Set Addr) (x : State T) : State T :=
  { x with mem := ⟨fun a => if a ∈ H then { x.node a with mutex := none } else x.node a, x.mem.live⟩ }

variable {H : Set Addr} {x x' : State T} {a : Addr} {t : T}

theorem mask_of_mem (ha : a ∈ H) : (State.mask H x).node a = { x.node a with mutex := none } := if_pos ha

@[simp] theorem mask_of_notMem (ha : a ∉ H) : (State.mask H x).node a = x.node a := if_neg ha

@[simp] theorem mask_head : (State.mask H x).head = x.head := rfl

@[simp] theorem mask_live : (State.mask H x).mem.live = x.mem.live := rfl

@[simp] theorem mask_next : ((State.mask H x).node a).next = (x.node a).next := by
  by_cases ha : a ∈ H
  · rw [mask_of_mem ha]
  · rw [mask_of_notMem ha]

@[simp] theorem mask_val : ((State.mask H x).node a).val = (x.node a).val := by
  by_cases ha : a ∈ H
  · rw [mask_of_mem ha]
  · rw [mask_of_notMem ha]

theorem notMem_of_mutex {u : T} (h : ((State.mask H x).node a).mutex = some u) : a ∉ H := by
  intro ha
  rw [mask_of_mem ha] at h
  cases h

/-- a write that does not concern a masked mutex -/
theorem mask_store {f : Node T → Node T}
    (hf : a ∈ H → f { x.node a with mutex := none } = { f (x.node a) with mutex := none }) :
    State.mask H (x.store a f) = (State.mask H x).store a f := by
  refine state_ext rfl ?_ rfl
  intro b
  by_cases hb : b = a
  · subst hb
    by_cases hH : b ∈ H
    · rw [mask_of_mem hH, node_store_self, node_store_self, mask_of_mem hH, hf hH]
    · rw [mask_of_notMem hH, node_store_self, node_store_self, mask_of_notMem hH]
  · rw [node_store_other _ _ hb]
    by_cases hH : b ∈ H
    · rw [mask_of_mem hH, mask_of_mem hH, node_store_other _ _ hb]
    · rw [mask_of_notMem hH, mask_of_notMem hH, node_store_other _ _ hb]

/-- a mutex changes that is masked in the state in which it is locked -/
theorem mask_mutex {H' : Set Addr} {m : Option T}
    (ha : (State.mask H' (x.store a fun n => { n with mutex := m })).node a = (State.mask H x).node a)
    (hH : ∀ b, b ≠ a → (b ∈ H' ↔ b ∈ H)) :
    State.mask H' (x.store a fun n => { n with mutex := m }) = State.mask H x := by
  refine state_ext rfl ?_ rfl
  intro b
  by_cases hb : b = a
  · exact hb ▸ ha
  · by_cases h : b ∈ H
    · rw [mask_of_mem ((hH b hb).2 h), mask_of_mem h, node_store_other _ _ hb]
    · rw [mask_of_notMem fun h1 => h ((hH b hb).1 h1), mask_of_notMem h, node_store_other _ _ hb]

theorem mask_lock (hH : ∀ b ∈ H, (x.node b).mutex ≠ none) (h : x.lock t a = some x') :
    (State.mask H x).lock t a = some (State.mask H x') := by
  obtain ⟨hfree, rfl⟩ := lock_eq_some.1 h
  have ha : a ∉ H := fun ha => hH a ha hfree
  rw [lock_eq_some, mask_of_notMem ha]
  exact ⟨hfree, mask_store fun h1 => absurd h1 ha⟩

theorem mask_unlock (ha : a ∉ H) : State.mask H (x.unlock a) = (State.mask H x).unlock a :=
  mask_store fun h1 => absurd h1 ha

theorem mask_free (c : Alloc (Node T)) (ha : a ∉ H) :
    State.mask H { x with mem := Heap.free c x.mem a } =
      { State.mask H x with mem := Heap.free c (State.mask H x).mem a } := by
  refine state_ext rfl ?_ rfl
  intro b
  by_cases hb : b = a
  · subst hb
    rw [mask_of_notMem ha]
    simp [State.node, Heap.free]
  · have h1 : ∀ y : State T, State.node { y with mem := Heap.free c y.mem a } b = y.node b :=
      fun y => free_other c y.mem hb
    rw [h1]
    by_cases hH : b ∈ H
    · rw [mask_of_mem hH, mask_of_mem hH, h1]
    · rw [mask_of_notMem hH, mask_of_notMem hH, h1]

/-- the nodes whose mutex a step writes without having found it free -/
def resets : Running → Option Addr
  | .insert _ (.mutexInit new) => some new
  | .insert _ (.unlockCurr _ curr) => some curr
  | .insert _ (.unlockPrev prev) => some prev
  | .delete _ (.unlockPrev prev _) => some prev
  | .delete _ (.free curr) => some curr
  | .delete _ (.passPrev prev _) => some prev
  | .delete _ (.unlockEnd prev) => some prev
  | _ => none

section Mask

variable {v : ℤ} {c : Alloc (Node T)} {es : List (LockCoupling.Event T)}

theorem mask_malloc : Heap.malloc c (State.mask H x).mem =
    (Heap.malloc c x.mem).map fun r => ((State.mask H { x with mem := r.1 }).mem, r.2) := by
  unfold Heap.malloc
  rw [mask_live]
  split
  · rfl
  · split_ifs <;> rfl

theorem mask_insert {p : InsertPc} {q : Option InsertPc} (hH : ∀ b ∈ H, (x.node b).mutex ≠ none)
    (hr : ∀ b, resets (.insert v p) = some b → b ∉ H) (hs : listInsert t v c x p = some (x', q, es)) :
    listInsert t v c (State.mask H x) p = some (State.mask H x', q, es) := by
  cases p with
  | malloc =>
    simp only [listInsert, mask_malloc] at hs ⊢
    split at hs
    · cases hs
    · rename_i hm
      cases hs
      rw [hm]
      rfl
    · rename_i hm
      cases hs
      rw [hm]
      rfl
  | storeVal new =>
    cases hs
    simp [listInsert, mask_store]
  | storeNull new =>
    cases hs
    simp [listInsert, mask_store]
  | mutexInit new =>
    cases hs
    simp [listInsert, mask_store]
  | loadHead new =>
    cases hs
    rfl
  | lockPrev new prev =>
    obtain ⟨y, hlock, he⟩ := Option.map_eq_some_iff.1 hs
    cases he
    simp [listInsert, mask_lock hH hlock]
  | loadCurr new prev =>
    simp only [listInsert, mask_next] at hs ⊢
    split at hs <;> cases hs <;> rfl
  | lockCurr new prev curr =>
    obtain ⟨y, hlock, he⟩ := Option.map_eq_some_iff.1 hs
    cases he
    simp [listInsert, mask_lock hH hlock]
  | storePrevNext new prev curr =>
    cases hs
    simp [listInsert, mask_store]
  | storeNewNext new prev curr =>
    cases curr <;> cases hs <;> simp [listInsert, mask_store]
  | unlockCurr prev curr =>
    cases hs
    simp [listInsert, mask_unlock (hr curr rfl)]
  | unlockPrev prev =>
    cases hs
    simp [listInsert, mask_unlock (hr prev rfl)]

theorem mask_delete {p : DeletePc} {q : Option DeletePc} (hH : ∀ b ∈ H, (x.node b).mutex ≠ none)
    (hr : ∀ b, resets (.delete v p) = some b → b ∉ H) (hs : listDelete t v c x p = some (x', q, es)) :
    listDelete t v c (State.mask H x) p = some (State.mask H x', q, es) := by
  cases p with
  | lockPrev prev =>
    obtain ⟨y, hlock, he⟩ := Option.map_eq_some_iff.1 hs
    cases he
    simp [listDelete, mask_lock hH hlock]
  | loadCurr prev =>
    simp only [listDelete, mask_next] at hs ⊢
    split at hs <;> cases hs <;> rfl
  | lockCurr prev curr =>
    obtain ⟨y, hlock, he⟩ := Option.map_eq_some_iff.1 hs
    cases he
    simp [listDelete, mask_lock hH hlock]
  | testVal prev curr =>
    simp only [listDelete, mask_val] at hs ⊢
    split_ifs at hs ⊢ <;> cases hs <;> rfl
  | loadNext prev curr =>
    cases hs
    simp [listDelete]
  | storePrevNext prev curr next =>
    cases hs
    simp [listDelete, mask_store]
  | unlockPrev prev curr =>
    cases hs
    simp [listDelete, mask_unlock (hr prev rfl)]
  | free curr =>
    cases hs
    simp [listDelete, mask_free c (hr curr rfl)]
  | passPrev prev curr =>
    cases hs
    simp [listDelete, mask_unlock (hr prev rfl)]
  | unlockEnd prev =>
    cases hs
    simp [listDelete, mask_unlock (hr prev rfl)]
  | _ =>
    cases hs
    rfl

theorem mask_run {r₀ : Running} {r : Option Running} (hH : ∀ b ∈ H, (x.node b).mutex ≠ none)
    (hr : ∀ b, resets r₀ = some b → b ∉ H) (hs : runStep t c x r₀ = some (x', r, es)) :
    runStep t c (State.mask H x) r₀ = some (State.mask H x', r, es) := by
  cases r₀ with
  | insert v p =>
    obtain ⟨q, hq, he⟩ := Option.map_eq_some_iff.1 hs
    cases he
    simp [runStep, mask_insert hH hr hq]
  | delete v p =>
    obtain ⟨q, hq, he⟩ := Option.map_eq_some_iff.1 hs
    cases he
    simp [runStep, mask_delete hH hr hq]

end Mask

/-! ## What an insert or a delete leaves in place -/

/-- the node whose `next` the step writes -/
def relinks : Running → Option Addr
  | .insert _ (.storeNull new) => some new
  | .insert _ (.storePrevNext _ prev _) => some prev
  | .insert _ (.storeNewNext new _ _) => some new
  | .delete _ (.storePrevNext prev _ _) => some prev
  | .delete _ (.free curr) => some curr
  | _ => none

/-- what the step leaves in place at the node `b` -/
structure Frame (x x' : State T) (r : Running) (b : Addr) : Prop where
  head : x'.head = x.head
  next : relinks r ≠ some b → (x'.node b).next = (x.node b).next
  mutex : resets r ≠ some b → (x.node b).mutex ≠ none → (x'.node b).mutex = (x.node b).mutex

theorem frame_refl {r : Running} {b : Addr} : Frame x x r b := ⟨rfl, fun _ => rfl, fun _ _ => rfl⟩

theorem frame_lock {r : Running} {b : Addr} (h : x.lock t a = some x') : Frame x x' r b := by
  obtain ⟨hfree, rfl⟩ := lock_eq_some.1 h
  refine ⟨rfl, fun _ => (store_mutex x a b (some t)).2, ?_⟩
  intro _ hb
  have hba : b ≠ a := fun he => hb (he ▸ hfree)
  rw [node_store_other x _ hba]

/-- a write to the node at `a` -/
theorem frame_store {r : Running} {b : Addr} {f : Node T → Node T}
    (hn : relinks r = some a ∨ ∀ n, (f n).next = n.next) (hm : resets r = some a ∨ ∀ n, (f n).mutex = n.mutex) :
    Frame x (x.store a f) r b := by
  by_cases hb : b = a
  · subst hb
    refine ⟨rfl, ?_, ?_⟩
    · intro h
      rw [node_store_self, hn.resolve_left h]
    · intro h _
      rw [node_store_self, hm.resolve_left h]
  · have h1 := node_store_other x f hb
    exact ⟨rfl, fun _ => by rw [h1], fun _ _ => by rw [h1]⟩

theorem frame_free {r : Running} {b : Addr} (c : Alloc (Node T)) (hn : relinks r = some a) (hm : resets r = some a) :
    Frame x { x with mem := Heap.free c x.mem a } r b := by
  by_cases hb : b = a
  · subst hb
    exact ⟨rfl, fun h => absurd hn h, fun h => absurd hm h⟩
  · have h1 : State.node { x with mem := Heap.free c x.mem a } b = x.node b := free_other c x.mem hb
    exact ⟨rfl, fun _ => by rw [h1], fun _ _ => by rw [h1]⟩

theorem run_frame {c : Alloc (Node T)} {es : List (LockCoupling.Event T)} {r₀ : Running} {r : Option Running}
    (hs : runStep t c x r₀ = some (x', r, es)) (b : Addr) : Frame x x' r₀ b := by
  cases r₀ with
  | insert v p =>
    obtain ⟨q, hq, he⟩ := Option.map_eq_some_iff.1 hs
    cases he
    cases p with
    | malloc =>
      simp only [listInsert] at hq
      split at hq
      · cases hq
      · cases hq
        exact frame_refl
      · rename_i hm
        cases hq
        obtain ⟨-, rfl⟩ := malloc_some hm
        exact ⟨rfl, fun _ => rfl, fun _ _ => rfl⟩
    | storeVal new => cases hq; exact frame_store (.inr fun _ => rfl) (.inr fun _ => rfl)
    | storeNull new => cases hq; exact frame_store (.inl rfl) (.inr fun _ => rfl)
    | mutexInit new => cases hq; exact frame_store (.inr fun _ => rfl) (.inl rfl)
    | loadHead new => cases hq; exact frame_refl
    | lockPrev new prev =>
      obtain ⟨y, hlock, he⟩ := Option.map_eq_some_iff.1 hq
      cases he
      exact frame_lock hlock
    | loadCurr new prev =>
      simp only [listInsert] at hq
      split at hq <;> cases hq <;> exact frame_refl
    | lockCurr new prev curr =>
      obtain ⟨y, hlock, he⟩ := Option.map_eq_some_iff.1 hq
      cases he
      exact frame_lock hlock
    | storePrevNext new prev curr => cases hq; exact frame_store (.inl rfl) (.inr fun _ => rfl)
    | storeNewNext new prev curr => cases curr <;> cases hq <;> exact frame_store (.inl rfl) (.inr fun _ => rfl)
    | unlockCurr prev curr => cases hq; exact frame_store (.inr fun _ => rfl) (.inl rfl)
    | unlockPrev prev => cases hq; exact frame_store (.inr fun _ => rfl) (.inl rfl)
  | delete v p =>
    obtain ⟨q, hq, he⟩ := Option.map_eq_some_iff.1 hs
    cases he
    cases p with
    | lockPrev prev =>
      obtain ⟨y, hlock, he⟩ := Option.map_eq_some_iff.1 hq
      cases he
      exact frame_lock hlock
    | loadCurr prev =>
      simp only [listDelete] at hq
      split at hq <;> cases hq <;> exact frame_refl
    | lockCurr prev curr =>
      obtain ⟨y, hlock, he⟩ := Option.map_eq_some_iff.1 hq
      cases he
      exact frame_lock hlock
    | testVal prev curr =>
      simp only [listDelete] at hq
      split_ifs at hq <;> cases hq <;> exact frame_refl
    | storePrevNext prev curr next => cases hq; exact frame_store (.inl rfl) (.inr fun _ => rfl)
    | unlockPrev prev curr => cases hq; exact frame_store (.inr fun _ => rfl) (.inl rfl)
    | free curr => cases hq; exact frame_free c rfl rfl
    | passPrev prev curr => cases hq; exact frame_store (.inr fun _ => rfl) (.inl rfl)
    | unlockEnd prev => cases hq; exact frame_store (.inr fun _ => rfl) (.inl rfl)
    | _ => cases hq; exact frame_refl

/-! ## The invariant -/

/-- the inserts and deletes in progress -/
def ops (s : Global T) : T → Option Running := fun t => opOf (s.loc t).run

/-- the nodes whose mutexes are held by `list_print` -/
def printLocked (s : Global T) : Set Addr := {a | ∃ t, held (s.loc t).run = some a}

/-- a new node ends the chain until `list_insert` has linked it -/
def FreshNext (x : State T) : Option Running → Prop
  | some (.insert _ (.mutexInit new)) => (x.node new).next = none
  | some (.insert _ (.loadHead new)) => (x.node new).next = none
  | some (.insert _ (.lockPrev new _)) => (x.node new).next = none
  | some (.insert _ (.loadCurr new _)) => (x.node new).next = none
  | some (.insert _ (.lockCurr new _ _)) => (x.node new).next = none
  | some (.insert _ (.storePrevNext new _ _)) => (x.node new).next = none
  | some (.insert _ (.storeNewNext new _ _)) => (x.node new).next = none
  | _ => True

theorem FreshNext.congr {r : Option Running} (h : FreshNext x r)
    (hn : ∀ a, mine r = some a → (x'.node a).next = (x.node a).next) : FreshNext x' r := by
  rcases r with _ | ⟨v, p⟩ | ⟨v, p⟩
  · trivial
  · cases p <;> first | trivial | exact (hn _ rfl).trans h
  · trivial

structure Inv (g : Ghost) (s : Global T) : Prop where
  list : ∃ vs, LockCoupling.Inv g vs (State.mask (printLocked s) s.sh) (ops s)
  locked : ∀ t a, held (s.loc t).run = some a → (s.sh.node a).mutex = some t
  fresh : ∀ t, FreshNext s.sh (ops s t)
  first : ∀ t a, (s.loc t).run = some (.print (.loadFirst a)) → a = s.sh.head
  /-- what a `list_print` points to is on the chain, about to be linked, or unlinked -/
  reach : ∀ t a, currOf (s.loc t).run = some a ∨ held (s.loc t).run = some a →
    a ∈ g.nodes ∨ ∃ u, visible (ops s u) = some a

section

variable {g : Ghost} {s : Global T}

theorem Inv.mutex_ne (h : Inv g s) : ∀ a ∈ printLocked s, (s.sh.node a).mutex ≠ none := by
  rintro a ⟨u, hu⟩
  rw [h.locked u a hu]
  simp

/-- no insert or delete holds a node that a `list_print` holds -/
theorem Inv.notMem_holds (h : Inv g s) (ha : a ∈ holds (ops s t)) : a ∉ printLocked s := by
  obtain ⟨vs, hi⟩ := h.list
  exact notMem_of_mutex (hi.locked t a ha)

theorem holds_or_linking {r : Option Running} (h : visible r = some a) :
    a ∈ holds r ∨ ∃ v prev curr, r = some (.insert v (.storeNewNext a prev curr)) := by
  rcases r with _ | ⟨v, p⟩ | ⟨v, p⟩
  · cases h
  · cases p <;> first | cases h; done | exact .inr ⟨_, _, _, by rw [← Option.some.inj h]⟩
  · cases p <;> first | cases h; done | (cases h; simp [holds])

/-- where a `next` pointer leads that a `list_print` reads -/
theorem Inv.reach_next (h : Inv g s)
    (ha : a ∈ g.nodes ∨ a ∈ printLocked s ∧ ∃ u, visible (ops s u) = some a) {c : Addr}
    (hc : (s.sh.node a).next = some c) : c ∈ g.nodes ∨ ∃ u, visible (ops s u) = some c := by
  obtain ⟨vs, hi⟩ := h.list
  rcases ha with ha | ⟨ha, u, hu⟩
  · rcases hi.real a ha with h1 | ⟨u, h1⟩
    · rw [mask_next, hc] at h1
      exact .inl (hi.chain.mem_next ha h1)
    · -- an insert has stored its new node there
      have hf := hi.facts u
      generalize hr : ops s u = r at h1 hf
      rcases r with _ | ⟨v, p⟩ | ⟨v, p⟩
      · cases h1
      · cases p <;> first | cases h1; done | skip
        obtain rfl := Option.some.inj h1
        have h2 := hf.2.2.2.2
        rw [mask_next, hc] at h2
        exact .inr ⟨u, by rw [hr]; exact h2.symm⟩
      · cases h1
  · rcases holds_or_linking hu with h1 | ⟨v, prev, curr, h1⟩
    · exact absurd ha (h.notMem_holds h1)
    · have hf := h.fresh u
      rw [h1] at hf
      rw [show (s.sh.node a).next = none from hf] at hc
      cases hc

/-- what a `list_print` touches is allocated -/
theorem Inv.touches_live (h : Inv g s) (ha : touches (s.loc t).run = some a) : s.sh.mem.live a = true := by
  obtain ⟨vs, hi⟩ := h.list
  have hlive : a ∈ g.nodes ∨ (∃ u, visible (ops s u) = some a) → s.sh.mem.live a = true := by
    rintro (h1 | ⟨u, h1⟩)
    · exact hi.live a h1
    · exact (hi.priv u a (mine_of_visible h1)).1
  have hreach := h.reach t a
  have hfirst := h.first t a
  generalize (s.loc t).run = r at ha hreach hfirst
  rcases r with _ | r | p
  · cases ha
  · cases ha
  · cases p with
    | loadHead => cases ha
    | loadFirst head =>
      obtain rfl := Option.some.inj ha
      rw [hfirst rfl]
      exact hi.live _ hi.head_mem
    | unlock temp curr => exact hlive (hreach (.inr ha))
    | _ => exact hlive (hreach (.inl ha))

end

/-! ## The steps -/

variable [DecidableEq T] {g : Ghost} {s : Global T} {l : Local}

theorem ops_move (s : Global T) (t : T) (x : State T) (l : Local) :
    ops (s.move t x l) = Function.update (ops s) t (opOf l.run) := by
  funext u
  by_cases h : u = t
  · subst h; simp [ops]
  · simp [ops, h]

/-- a step of a `list_print`, or between two calls: the inserts and deletes stay where they are -/
theorem Inv.print (h : Inv g s) (hops : opOf l.run = opOf (s.loc t).run)
    (hmask : State.mask (printLocked (s.move t x l)) x = State.mask (printLocked s) s.sh)
    (hnext : ∀ a, (x.node a).next = (s.sh.node a).next)
    (hother : ∀ u, u ≠ t → ∀ a, held (s.loc u).run = some a → (x.node a).mutex = (s.sh.node a).mutex)
    (hlocked : ∀ a, held l.run = some a → (x.node a).mutex = some t)
    (hfirst : ∀ a, l.run = some (.print (.loadFirst a)) → a = s.sh.head)
    (hreach : ∀ a, currOf l.run = some a ∨ held l.run = some a →
      a ∈ g.nodes ∨ ∃ u, visible (ops s u) = some a) : Inv g (s.move t x l) := by
  obtain ⟨vs, hi⟩ := h.list
  have hops' : ops (s.move t x l) = ops s := by
    rw [ops_move, hops]
    exact Function.update_eq_self t (ops s)
  have hhead : x.head = s.sh.head := by simpa using congrArg State.head hmask
  refine ⟨⟨vs, ?_⟩, ?_, ?_, ?_, ?_⟩
  · rw [hops', St.move_sh, hmask]
    exact hi
  · refine s.forall_move (p := fun u l => ∀ a, held l.run = some a → (x.node a).mutex = some u) x hlocked ?_
    intro u hut a hu
    rw [hother u hut a hu]
    exact h.locked u a hu
  · intro u
    rw [hops']
    exact (h.fresh u).congr fun a _ => hnext a
  · rw [St.move_sh, hhead]
    exact s.forall_move (p := fun _ l => ∀ a, l.run = some (.print (.loadFirst a)) → a = s.sh.head) x hfirst
      fun u _ => h.first u
  · rw [hops']
    exact s.forall_move (p := fun _ l => ∀ a, currOf l.run = some a ∨ held l.run = some a →
      a ∈ g.nodes ∨ ∃ u, visible (ops s u) = some a) x hreach fun u _ => h.reach u

/-- the nodes held by `list_print` when only the holding of `t` changes -/
theorem mem_printLocked_move {x : State T} :
    a ∈ printLocked (s.move t x l) ↔ held l.run = some a ∨ ∃ u, u ≠ t ∧ held (s.loc u).run = some a := by
  refine ⟨?_, ?_⟩
  · rintro ⟨u, hu⟩
    by_cases hut : u = t
    · subst hut
      rw [St.move_loc, Function.update_self] at hu
      exact .inl hu
    · rw [St.move_loc, Function.update_of_ne hut] at hu
      exact .inr ⟨u, hut, hu⟩
  · rintro (h | ⟨u, hut, hu⟩)
    · exact ⟨t, by simpa using h⟩
    · exact ⟨u, by simpa [hut] using hu⟩

theorem printLocked_move {x : State T} (h : held l.run = held (s.loc t).run) :
    printLocked (s.move t x l) = printLocked s := by
  ext a
  rw [mem_printLocked_move, h]
  refine ⟨?_, ?_⟩
  · rintro (h1 | ⟨u, -, h1⟩)
    · exact ⟨t, h1⟩
    · exact ⟨u, h1⟩
  · rintro ⟨u, hu⟩
    by_cases hut : u = t
    · exact .inl (hut ▸ hu)
    · exact .inr ⟨u, hut, hu⟩

/-- only `a` can come to be held, or cease to be -/
theorem mem_printLocked_other {x : State T} {b : Addr} (hl : ∀ c, held l.run = some c → c = a)
    (ht : ∀ c, held (s.loc t).run = some c → c = a) (hb : b ≠ a) :
    b ∈ printLocked (s.move t x l) ↔ b ∈ printLocked s := by
  rw [mem_printLocked_move]
  refine ⟨?_, ?_⟩
  · rintro (h1 | ⟨u, -, h1⟩)
    · exact absurd (hl b h1) hb
    · exact ⟨u, h1⟩
  · rintro ⟨u, hu⟩
    refine .inr ⟨u, ?_, hu⟩
    rintro rfl
    exact hb (ht b hu)

/-- a step of a `list_print` that changes neither the state nor what is held -/
theorem Inv.printQuiet (h : Inv g s) (hops : opOf l.run = opOf (s.loc t).run) (hheld : held l.run = held (s.loc t).run)
    (hfirst : ∀ a, l.run = some (.print (.loadFirst a)) → a = s.sh.head)
    (hcurr : ∀ a, currOf l.run = some a → a ∈ g.nodes ∨ ∃ u, visible (ops s u) = some a) : Inv g (s.move t s.sh l) := by
  refine h.print hops (by rw [printLocked_move hheld]) (fun _ => rfl) (fun _ _ _ _ => rfl) ?_ hfirst ?_
  · intro a ha
    exact h.locked t a (hheld ▸ ha)
  · intro a ha
    exact ha.elim (hcurr a) fun h1 => h.reach t a (.inr (hheld ▸ h1))

/-- a `list_print` locks its `curr` -/
theorem Inv.printLock (h : Inv g s) {curr : Addr} (ht : (s.loc t).run = some (.print (.lock curr)))
    (hfree : (s.sh.node curr).mutex = none) (hl : l.run = some (.print (.printVal curr))) :
    Inv g (s.move t (s.sh.store curr fun n => { n with mutex := some t }) l) := by
  have hheld : held l.run = some curr := by rw [hl]; rfl
  have hnot : held (s.loc t).run = none := by rw [ht]; rfl
  have hout : curr ∉ printLocked s := fun hc => h.mutex_ne curr hc hfree
  refine h.print (by rw [hl, ht]; rfl) ?_ (fun a => (store_mutex s.sh curr a (some t)).2) ?_ ?_ ?_ ?_
  · refine mask_mutex ?_ fun b hb => mem_printLocked_other (a := curr) ?_ ?_ hb
    · rw [mask_of_mem (mem_printLocked_move.2 (.inl hheld)), mask_of_notMem hout, node_store_self]
      generalize s.sh.node curr = n at hfree
      obtain ⟨m, v, o⟩ := n
      obtain rfl : m = none := hfree
      rfl
    · intro c hc
      exact (Option.some.inj (hheld.symm.trans hc)).symm
    · intro c hc
      cases hnot.symm.trans hc
  · intro u hut a hu
    have hac : a ≠ curr := fun he => hout ⟨u, he ▸ hu⟩
    rw [node_store_other _ _ hac]
  · intro a ha
    obtain rfl := Option.some.inj (hheld.symm.trans ha)
    rw [node_store_self]
  · intro a ha
    rw [hl] at ha
    cases ha
  · intro a ha
    refine h.reach t a (.inl ?_)
    rw [hl] at ha
    rw [ht]
    exact ha.elim id id

/-- a `list_print` unlocks the node before its `curr` -/
theorem Inv.printUnlock (h : Inv g s) {temp : Addr} {curr : Option Addr}
    (ht : (s.loc t).run = some (.print (.unlock temp curr))) (hl : l.run = (curr.map .lock).map .print) :
    Inv g (s.move t (s.sh.unlock temp) l) := by
  have hheld : held (s.loc t).run = some temp := by rw [ht]; rfl
  have hnot : held l.run = none := by rw [hl]; cases curr <;> rfl
  have hmutex := h.locked t temp hheld
  have hne : ∀ u, u ≠ t → ∀ a, held (s.loc u).run = some a → a ≠ temp := by
    rintro u hut a hu rfl
    exact hut (Option.some.inj ((h.locked u a hu).symm.trans hmutex))
  refine h.print (by rw [hl, ht]; cases curr <;> rfl) ?_ (fun a => (store_mutex s.sh temp a none).2) ?_ ?_ ?_ ?_
  · refine mask_mutex ?_ fun b hb => mem_printLocked_other (a := temp) ?_ ?_ hb
    · have hmem : temp ∈ printLocked s := ⟨t, hheld⟩
      have hout : temp ∉ printLocked (s.move t (s.sh.unlock temp) l) := by
        rw [mem_printLocked_move, hnot]
        rintro (h1 | ⟨u, hut, h1⟩)
        · cases h1
        · exact hne u hut temp h1 rfl
      rw [mask_of_mem hmem, mask_of_notMem hout]
      exact node_store_self _ _ _
    · intro c hc
      cases hnot.symm.trans hc
    · intro c hc
      exact (Option.some.inj (hheld.symm.trans hc)).symm
  · intro u hut a hu
    rw [State.unlock, node_store_other _ _ (hne u hut a hu)]
  · intro a ha
    cases hnot.symm.trans ha
  · intro a ha
    rw [hl] at ha
    cases curr <;> cases ha
  · intro a ha
    have h1 := ha.resolve_right (by simp [hnot])
    refine h.reach t a (.inl ?_)
    rw [ht]
    rw [hl] at h1
    cases curr with
    | none => cases h1
    | some c => exact h1

theorem print_step (h : Inv g s) {p : PrintPc} (ht : (s.loc t).run = some (.print p)) {q : Option PrintPc}
    {es : List (Output T)} (hs : listPrint t s.sh p = some (x, q, es)) (hl : l.run = q.map .print) :
    Inv g (s.move t x l) := by
  have hops : opOf l.run = opOf (s.loc t).run := by rw [hl, ht]; cases q <;> rfl
  cases p with
  | loadHead =>
    cases hs
    exact h.printQuiet hops (by rw [hl, ht]; rfl) (fun a ha => by rw [hl] at ha; cases ha; rfl)
      fun a ha => by rw [hl] at ha; cases ha
  | loadFirst head =>
    cases hs
    obtain ⟨vs, hi⟩ := h.list
    obtain rfl := h.first t head ht
    refine h.printQuiet hops ?_ ?_ ?_
    · rw [hl, ht]
      cases (s.sh.node s.sh.head).next <;> rfl
    · intro a ha
      rw [hl] at ha
      cases hn : (s.sh.node s.sh.head).next <;> rw [hn] at ha <;> cases ha
    · intro a ha
      refine h.reach_next (a := s.sh.head) (.inl hi.head_mem) ?_
      rw [hl] at ha
      cases hn : (s.sh.node s.sh.head).next with
      | none => rw [hn] at ha; cases ha
      | some c => rw [hn] at ha; exact ha
  | lock curr =>
    obtain ⟨y, hlock, he⟩ := Option.map_eq_some_iff.1 hs
    cases he
    obtain ⟨hfree, rfl⟩ := lock_eq_some.1 hlock
    exact h.printLock ht hfree hl
  | printVal curr =>
    cases hs
    exact h.printQuiet hops (by rw [hl, ht]; rfl) (fun a ha => by rw [hl] at ha; cases ha)
      fun a ha => h.reach t a (.inl (by rw [ht]; rw [hl] at ha; exact ha))
  | loadNext curr =>
    cases hs
    have hmem : curr ∈ printLocked s := ⟨t, by rw [ht]; rfl⟩
    refine h.printQuiet hops (by rw [hl, ht]; rfl) (fun a ha => by rw [hl] at ha; cases ha) ?_
    intro a ha
    rw [hl] at ha
    exact h.reach_next ((h.reach t curr (.inr (by rw [ht]; rfl))).imp_right fun h1 => ⟨hmem, h1⟩) ha
  | unlock temp curr =>
    cases hs
    exact h.printUnlock ht hl

omit [DecidableEq T] in
/-- the nodes that an insert or a delete writes to are its own or, for `next`, on the chain -/
theorem Inv.relinks_mem (h : Inv g s) {r : Running} (hr : ops s t = some r) (ha : relinks r = some a) :
    a ∈ g.nodes ∨ mine (some r) = some a := by
  obtain ⟨vs, hi⟩ := h.list
  have hf := hi.facts t
  rw [hr] at hf
  cases r with
  | insert v p =>
    cases p with
    | storeNull new => exact .inr ha
    | storePrevNext new prev curr =>
      obtain rfl := Option.some.inj ha
      rw [hf.2.2.1]
      exact .inl hi.head_mem
    | storeNewNext new prev curr => exact .inr ha
    | _ => cases ha
  | delete v p =>
    cases p with
    | storePrevNext prev curr next =>
      obtain rfl := Option.some.inj ha
      exact .inl hf.1
    | free curr => exact .inr ha
    | _ => cases ha

omit [DecidableEq T] in
theorem Inv.resets_notMem (h : Inv g s) {r : Running} (hr : ops s t = some r) (ha : resets r = some a) :
    a ∉ printLocked s := by
  obtain ⟨vs, hi⟩ := h.list
  have hheld : a ∈ holds (some r) → a ∉ printLocked s := fun h1 => h.notMem_holds (t := t) (by rw [hr]; exact h1)
  cases r with
  | insert v p =>
    cases p with
    | mutexInit new =>
      -- nobody else has a pointer to the new node
      obtain rfl := Option.some.inj ha
      rintro ⟨u, hu⟩
      have hmine : mine (ops s t) = some new := by rw [hr]; rfl
      rcases h.reach u new (.inr hu) with h1 | ⟨w, h1⟩
      · exact (hi.priv t new hmine).2 h1
      · obtain rfl := hi.disj t w new hmine (mine_of_visible h1)
        rw [hr] at h1
        cases h1
    | unlockCurr prev curr => exact hheld (by cases ha; simp [holds])
    | unlockPrev prev => exact hheld (by cases ha; simp [holds])
    | _ => cases ha
  | delete v p =>
    cases p with
    | unlockPrev prev curr => exact hheld (by cases ha; simp [holds])
    | free curr => exact hheld (by cases ha; simp [holds])
    | passPrev prev curr => exact hheld (by cases ha; simp [holds])
    | unlockEnd prev => exact hheld (by cases ha; simp [holds])
    | _ => cases ha

omit [DecidableEq T] in
/-- the new node of an insert ends the chain after the insert's own step -/
theorem fresh_step {x x' : State T} {c : Alloc (Node T)} {r₀ : Running} {r : Option Running}
    {es : List (LockCoupling.Event T)} (hf : FreshNext x (some r₀)) (hs : runStep t c x r₀ = some (x', r, es))
    (hprev : ∀ v new prev curr, r₀ = .insert v (.storePrevNext new prev curr) → new ≠ prev) : FreshNext x' r := by
  cases r₀ with
  | delete v p =>
    obtain ⟨q, -, he⟩ := Option.map_eq_some_iff.1 hs
    cases he
    cases q.2.1 <;> trivial
  | insert v p =>
    have hframe := run_frame hs
    obtain ⟨q, hq, he⟩ := Option.map_eq_some_iff.1 hs
    cases he
    cases p with
    | malloc =>
      simp only [listInsert] at hq
      split at hq <;> cases hq <;> trivial
    | storeVal new => cases hq; trivial
    | storeNull new =>
      cases hq
      simp [FreshNext]
    | mutexInit new => cases hq; exact ((hframe new).next (by simp [relinks])).trans hf
    | loadHead new => cases hq; exact hf
    | lockPrev new prev =>
      obtain ⟨y, -, he⟩ := Option.map_eq_some_iff.1 hq
      cases he
      exact ((hframe new).next (by simp [relinks])).trans hf
    | loadCurr new prev =>
      simp only [listInsert] at hq
      split at hq <;> cases hq <;> exact hf
    | lockCurr new prev curr =>
      obtain ⟨y, -, he⟩ := Option.map_eq_some_iff.1 hq
      cases he
      exact ((hframe new).next (by simp [relinks])).trans hf
    | storePrevNext new prev curr =>
      cases hq
      exact ((hframe new).next (by simpa [relinks] using (hprev v new prev curr rfl).symm)).trans hf
    | storeNewNext new prev curr => cases curr <;> cases hq <;> trivial
    | unlockCurr prev curr => cases hq; trivial
    | unlockPrev prev => cases hq; trivial

/-- a step of an insert or a delete that frees nothing a `list_print` goes on to -/
theorem op_step (h : Inv g s) {r₀ : Running} (ht : (s.loc t).run = some (.op r₀)) {c : Alloc (Node T)}
    (hok : Spares s t c) {x : State T} {r : Option Running} {es : List (LockCoupling.Event T)}
    (hs : runStep t c s.sh r₀ = some (x, r, es)) (hl : l.run = r.map .op) : ∃ g', Inv g' (s.move t x l) := by
  obtain ⟨vs, hi⟩ := h.list
  have hops : ops s t = some r₀ := by simp [ops, ht, opOf]
  have hopl : opOf l.run = r := by rw [hl]; cases r <;> rfl
  have hheldl : held l.run = none := by rw [hl]; cases r <;> rfl
  have hlocks : printLocked (s.move t x l) = printLocked s := printLocked_move (by rw [hheldl, ht]; rfl)
  have hframe := run_frame hs
  obtain ⟨g', hi', hkeep⟩ := run_step hi hops
    (mask_run h.mutex_ne (fun b hb => h.resets_notMem hops hb) hs)
  refine ⟨g', ⟨es.foldl (fun vs e => e.apply vs) vs, ?_⟩, ?_, ?_, ?_, ?_⟩
  · rw [hlocks, ops_move, hopl]
    exact hi'
  · refine s.forall_move (p := fun u l => ∀ a, held l.run = some a → (x.node a).mutex = some u) x ?_ ?_
    · intro a hu
      rw [hheldl] at hu
      cases hu
    · intro u hut a hu
      have hmem : a ∈ printLocked s := ⟨u, hu⟩
      rw [(hframe a).mutex (fun h1 => h.resets_notMem hops h1 hmem) (h.mutex_ne a hmem)]
      exact h.locked u a hu
  · intro u
    rw [ops_move, hopl]
    by_cases hut : u = t
    · subst hut
      rw [Function.update_self]
      refine fresh_step (hops ▸ h.fresh u) hs ?_
      rintro v new prev curr rfl
      have hmine : mine (ops s u) = some new := by rw [hops]; rfl
      have hf := hi.facts u
      rw [hops] at hf
      intro he
      refine (hi.priv u new hmine).2 ?_
      rw [he, hf.2.2.1]
      exact hi.head_mem
    · rw [Function.update_of_ne hut]
      refine (h.fresh u).congr fun a ha => (hframe a).next fun h1 => ?_
      rcases h.relinks_mem hops h1 with h2 | h2
      · exact (hi.priv u a ha).2 h2
      · exact hut (hi.disj u t a ha (by rw [hops]; exact h2))
  · refine s.forall_move (p := fun _ l => ∀ a, l.run = some (.print (.loadFirst a)) → a = x.head) x ?_ ?_
    · intro a hu
      rw [hl] at hu
      cases r <;> cases hu
    · intro u hut a hu
      rw [(hframe a).head]
      exact h.first u a hu
  · intro u a hu
    by_cases hut : u = t
    · subst hut
      rw [St.move_loc, Function.update_self, hheldl, hl] at hu
      cases r <;> simp [currOf] at hu
    · rw [St.move_loc, Function.update_of_ne hut] at hu
      rw [ops_move, hopl]
      -- what `u` points to stays reachable, as the step does not free it
      have hcase : a ∈ g.nodes ∨ visible (some r₀) = some a →
          a ∈ g'.nodes ∨ ∃ w, visible (Function.update (ops s) t r w) = some a := by
        intro h1
        rcases hkeep a h1 with h2 | h2 | h2
        · exact .inl h2
        · exact .inr ⟨t, by rw [Function.update_self, h2]⟩
        · rcases hu with h3 | h3
          · exact absurd h3 (hok a (by rw [ht]; exact h2) u)
          · refine absurd ⟨u, h3⟩ (h.notMem_holds (t := t) (a := a) ?_)
            rw [hops]
            cases r₀ with
            | insert v p => cases h2
            | delete v p => cases p <;> first | cases h2; done | (cases h2; simp [holds])
      rcases h.reach u a hu with h1 | ⟨w, h1⟩
      · exact hcase (.inl h1)
      · by_cases hwt : w = t
        · subst hwt
          rw [hops] at h1
          exact hcase (.inr h1)
        · exact .inr ⟨w, by rw [Function.update_of_ne hwt, h1]⟩

/-! ## Runs -/

omit [DecidableEq T] in
theorem inv_init (cell : Addr → Node T) (a : Addr) (calls : T → List Call) :
    Inv ⟨[a], fun _ => none, fun _ => none⟩ (start cell a calls) := by
  have hops : ops (start cell a calls) = running (LockCoupling.start cell a fun _ : T => []) := rfl
  have hmask : State.mask (printLocked (start cell a calls)) (listInit cell a) = listInit cell a :=
    state_ext rfl (fun b => mask_of_notMem fun ⟨u, hu⟩ => by cases hu) rfl
  refine ⟨⟨[], ?_⟩, fun t b hb => (by cases hb), fun t => trivial, fun t b hb => (by cases hb), ?_⟩
  · rw [hops, show (start cell a calls).sh = listInit cell a from rfl, hmask]
    exact LockCoupling.inv_init cell a _
  · intro t b hb
    exact hb.elim (fun h1 => by cases h1) fun h1 => by cases h1

/-- an insert or a delete begins -/
theorem begin_step (h : Inv g s) (ht : (s.loc t).run = none) (o : Op) (hl : l.run = some (.op o.begin)) :
    Inv g (s.move t s.sh l) := by
  obtain ⟨vs, hi⟩ := h.list
  have hops : ops s t = none := by simp [ops, ht, opOf]
  have hopl : opOf l.run = some o.begin := by rw [hl]; rfl
  have hlocks : printLocked (s.move t s.sh l) = printLocked s := printLocked_move (by rw [hl, ht]; rfl)
  refine ⟨⟨vs, ?_⟩, ?_, ?_, ?_, ?_⟩
  · rw [hlocks, ops_move, hopl]
    refine hi.quiet hops ?_ ?_ ?_ rfl ?_ <;> cases o <;> first | rfl | trivial
  · refine s.forall_move (p := fun u l => ∀ b, held l.run = some b → (s.sh.node b).mutex = some u) s.sh ?_
      fun u _ => h.locked u
    intro b hb
    rw [hl] at hb
    cases hb
  · intro u
    rw [ops_move, hopl]
    by_cases hut : u = t
    · subst hut
      rw [Function.update_self]
      cases o <;> trivial
    · rw [Function.update_of_ne hut]
      exact h.fresh u
  · refine s.forall_move (p := fun _ l => ∀ b, l.run = some (.print (.loadFirst b)) → b = s.sh.head) s.sh ?_
      fun u _ => h.first u
    intro b hb
    rw [hl] at hb
    cases hb
  · intro u b hb
    by_cases hut : u = t
    · subst hut
      rw [St.move_loc, Function.update_self, hl] at hb
      exact hb.elim (fun h1 => by cases h1) fun h1 => by cases h1
    · rw [St.move_loc, Function.update_of_ne hut] at hb
      refine (h.reach u b hb).imp_right ?_
      rintro ⟨w, hw⟩
      have hwt : w ≠ t := by
        rintro rfl
        rw [hops] at hw
        cases hw
      exact ⟨w, by rw [ops_move, Function.update_of_ne hwt, hw]⟩

theorem prog_step (h : Inv g s) {c : Alloc (Node T)} (hok : Spares s t c) {x : State T} {es : List (Output T)}
    (hs : prog t c s.sh (s.loc t) = some (x, l, es)) : ∃ g', Inv g' (s.move t x l) := by
  simp only [prog] at hs
  split at hs
  · rename_i act ht
    obtain ⟨⟨y, q, es'⟩, hq, he⟩ := Option.map_eq_some_iff.1 hs
    cases he
    cases act with
    | op r₀ =>
      obtain ⟨⟨y', r, es''⟩, hr, he⟩ := Option.map_eq_some_iff.1 hq
      cases he
      exact op_step h ht hok hr rfl
    | print p =>
      obtain ⟨⟨y', r, es''⟩, hr, he⟩ := Option.map_eq_some_iff.1 hq
      cases he
      exact ⟨g, print_step h ht hr rfl⟩
  · rename_i ht
    split at hs
    · cases hs
    · rename_i call calls htodo
      cases hs
      cases call with
      | print =>
        refine ⟨g, h.print (by rw [ht]; rfl) (by rw [printLocked_move (by rw [ht]; rfl)]) (fun _ => rfl)
          (fun _ _ _ _ => rfl) (fun b hb => by cases hb) (fun b hb => by cases hb) ?_⟩
        exact fun b hb => hb.elim (fun h1 => by cases h1) fun h1 => by cases h1
      | op o =>
        exact ⟨g, begin_step h ht o rfl⟩

theorem run_inv {cell : Addr → Node T} {a : Addr} {calls : T → List Call} {as : List (T × Alloc (Node T))}
    {tr : List (Output T)} (h : RunIf prog Spares (start cell a calls) as tr s) : ∃ g, Inv g s := by
  refine h.inv_trace (I := fun _ s => ∃ g, Inv g s) ⟨_, inv_init cell a calls⟩ ?_
  rintro tr s t c x l es ⟨g, hi⟩ hok hs
  exact prog_step hi hok hs

/-! ## When `list_print` is safe -/

omit [DecidableEq T] in
theorem free_of_not_spares {c : Alloc (Node T)} (h : ¬ Spares s t c) :
    ∃ v a u, (s.loc t).run = some (.op (.delete v (.free a))) ∧ currOf (s.loc u).run = some a := by
  simp only [Spares] at h
  push Not at h
  obtain ⟨a, ha, u, hu⟩ := h
  generalize (s.loc t).run = r at ha
  rcases r with _ | (⟨v, p⟩ | ⟨v, p⟩) | p
  · cases ha
  · cases ha
  · cases p with
    | free b =>
      obtain rfl := Option.some.inj ha
      exact ⟨v, b, u, rfl, hu⟩
    | _ => cases ha
  · cases ha

/-- a step that frees `curr` of a `list_print`: the `list_print` goes on to the freed node -/
theorem touches_freed (h : Inv g s) {c : Alloc (Node T)} (hno : ¬ Spares s t c) :
    ∃ bs tr s', Run prog s bs tr s' ∧ ∃ u b, touches (s'.loc u).run = some b ∧ s'.sh.mem.live b = false := by
  obtain ⟨v, a, u, ht, hu⟩ := free_of_not_spares hno
  have hut : u ≠ t := by
    rintro rfl
    rw [ht] at hu
    cases hu
  have hheld : held (s.loc u).run ≠ some a := fun hh =>
    h.notMem_holds (t := t) (a := a) (by simp [ops, ht, opOf, holds]) ⟨u, hh⟩
  -- the step frees the node
  have hfree : prog t c s.sh (s.loc t) =
      some ({ s.sh with mem := Heap.free c s.sh.mem a }, ⟨none, (s.loc t).todo⟩, []) := by
    simp [prog, ht, step, runStep, listDelete]
  have hdead : (Heap.free c s.sh.mem a).live a = false := by simp [Heap.free]
  have hloc : ((s.move t { s.sh with mem := Heap.free c s.sh.mem a } ⟨none, (s.loc t).todo⟩).loc u) = s.loc u := by
    rw [St.move_loc, Function.update_of_ne hut]
  have hcase : (s.loc u).run = some (.print (.lock a)) ∨
      ∃ temp, (s.loc u).run = some (.print (.unlock temp (some a))) := by
    generalize (s.loc u).run = r at hu hheld
    rcases r with _ | r | p
    · cases hu
    · cases hu
    · cases p with
      | lock curr => cases hu; exact .inl rfl
      | unlock temp curr => cases hu; exact .inr ⟨temp, rfl⟩
      | printVal curr => exact absurd hu hheld
      | loadNext curr => exact absurd hu hheld
      | _ => cases hu
  rcases hcase with hl | ⟨temp, hl⟩
  · exact ⟨_, _, _, Run.single hfree, u, a, by rw [hloc, hl]; rfl, hdead⟩
  · have hstep : prog u c (s.move t { s.sh with mem := Heap.free c s.sh.mem a } ⟨none, (s.loc t).todo⟩).sh
        ((s.move t { s.sh with mem := Heap.free c s.sh.mem a } ⟨none, (s.loc t).todo⟩).loc u) =
        some (State.unlock { s.sh with mem := Heap.free c s.sh.mem a } temp,
          ⟨some (.print (.lock a)), (s.loc u).todo⟩, []) := by
      rw [hloc]
      simp [prog, hl, step, listPrint]
    exact ⟨_, _, _, (Run.single hfree).append (Run.single hstep), u, a, by simp [touches], hdead⟩

/-- **When `list_print` is safe.** In every run whose steps free no node that is `curr` of a `list_print`, every node
that a `list_print` locks, reads or unlocks is allocated. Where such a run comes to a step that does free one, it can go
on to a state in which a `list_print` touches a freed node. -/
theorem print_safe {cell : Addr → Node T} {a : Addr} {calls : T → List Call} {as : List (T × Alloc (Node T))}
    {tr : List (Output T)} (h : RunIf prog Spares (start cell a calls) as tr s) :
    (∀ t b, touches (s.loc t).run = some b → s.sh.mem.live b = true) ∧
    ∀ t c, ¬ Spares s t c →
      ∃ bs tr' s', Run prog s bs tr' s' ∧ ∃ u b, touches (s'.loc u).run = some b ∧ s'.sh.mem.live b = false := by
  obtain ⟨g, hi⟩ := run_inv h
  exact ⟨fun t b hb => hi.touches_live hb, fun t c hno => touches_freed hi hno⟩

/-- a `list_print` that waits for a delete to pass -/
theorem print_safe_two :
    ∃ as tr s, RunIf prog Spares (start (fun _ => ⟨none, 0, none⟩) 0
        fun t : Fin 2 => if t = 0 then [.op (.insert 5), .op (.delete 7)] else [.print]) as tr s ∧
      touches (s.loc 1).run = some 1 ∧ ∀ t b, touches (s.loc t).run = some b → s.sh.mem.live b = true := by
  obtain ⟨s, tr, h, h1⟩ := execIf_any_runIf prog Spares (start (fun _ => ⟨none, 0, none⟩) 0
      fun t : Fin 2 => if t = 0 then [.op (.insert 5), .op (.delete 7)] else [.print])
    (List.replicate 16 (0, answer 1) ++ List.replicate 3 (1, answer 0) ++ List.replicate 2 (0, answer 0))
    (fun s _ => touches (s.loc 1).run = some 1) (by decide +kernel)
  exact ⟨_, tr, s, h, h1, (print_safe h).1⟩

/-- the delete frees the first node between the read of `head->next` and the lock: `list_print` locks a freed node -/
theorem print_freed_two :
    ∃ as tr s, Run prog (start (fun _ => ⟨none, 0, none⟩) 0
        fun t : Fin 2 => if t = 0 then [.op (.insert 5), .op (.delete 5)] else [.print]) as tr s ∧
      ¬ ∀ t b, touches (s.loc t).run = some b → s.sh.mem.live b = true := by
  obtain ⟨s, tr, h, h1, h2⟩ := exec_any_run prog (start (fun _ => ⟨none, 0, none⟩) 0
      fun t : Fin 2 => if t = 0 then [.op (.insert 5), .op (.delete 5)] else [.print])
    (List.replicate 11 (0, answer 1) ++ List.replicate 3 (1, answer 0) ++ List.replicate 11 (0, answer 0))
    (fun s _ => touches (s.loc 1).run = some 1 ∧ s.sh.mem.live 1 = false) (by decide +kernel)
  exact ⟨_, tr, s, h, fun hno => absurd (hno 1 1 h1) (by simp [h2])⟩

end OsPractice.LockCouplingPrint
