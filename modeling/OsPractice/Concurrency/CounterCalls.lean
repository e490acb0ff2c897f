/-
The functions of the counter (`concurrency/counter.c`): `inc`, `dec` and `get`. Each locks the mutex, loads the value,
stores it, unless it is `get`, unlocks the mutex and returns what it has stored or loaded.

Any number of threads make any calls in any order. The value is an `int` that wraps around.

The event of an operation marks the step at which it takes effect: the store, or the load of `get`.

Results:
- `counter_linearizable`: the calls have the results that they would have one after another, in an order that keeps to
  real time, and at every point the value is that order's number of increments less its number of decrements.
-/
import OsPractice.Concurrency.Counter
import OsPractice.Core.History

namespace OsPractice.CounterCalls

open Interleave Monitor Counter History

/-! ## The program -/

inductive Op where
  | inc
  | dec
  | get
  deriving DecidableEq, Repr

/-- where a thread is in a call; `out` is between two calls -/
inductive Pc where
  | out
  | lock (op : Op)
  | load (op : Op)
  | store (op : Op) (rv : BitVec 32)
  | unlock (rv : BitVec 32)
  | ret (rv : BitVec 32)
  deriving DecidableEq, Repr

variable {T : Type}

/-- the choice is the function that a thread calls -/
def prog : Prog T Op (CounterT T) Pc (Event T Op (BitVec 32)) := fun t op c pc =>
  match pc with
  | .out => some (c, .lock op, [.call t op])
  | .lock op => (lock t c.mutex).map fun m => ({ c with mutex := m }, .load op, [])
  -- rv = ++c->value
  | .load .inc => some (c, .store .inc (c.value + 1), [])
  -- rv = --c->value
  | .load .dec => some (c, .store .dec (c.value - 1), [])
  | .load .get => some (c, .unlock c.value, [.effect t .get c.value])
  | .store op rv => some ({ c with value := rv }, .unlock rv, [.effect t op rv])
  | .unlock rv => some ({ c with mutex := none }, .ret rv, [])
  | .ret rv => some (c, .out, [.ret t rv])

def start : St T (CounterT T) Pc := ⟨counter_init T, fun _ => .out⟩

/-! ## The counter that one thread uses -/

def Op.next : Op → BitVec 32 → BitVec 32
  | .inc, v => v + 1
  | .dec, v => v - 1
  | .get, v => v

def counter : Object Op (BitVec 32) (BitVec 32) := ⟨0, fun op v => (op.next v, op.next v)⟩

def Op.change : Op → ℤ
  | .inc => 1
  | .dec => -1
  | .get => 0

/-- the increments less the decrements -/
def net (l : List (T × Op)) : ℤ := (l.map fun p => p.2.change).sum

theorem next_eq (op : Op) (v : BitVec 32) : op.next v = v + BitVec.ofInt 32 op.change := by
  cases op with
  | inc => rfl
  | dec => exact BitVec.sub_eq_add_neg v 1
  | get => exact (BitVec.add_zero v).symm

/-- the value after the operations of a legal order -/
theorem legal_value {L : List (Effect T Op (BitVec 32))} {v : BitVec 32} (h : Legal counter L v) :
    v = BitVec.ofInt 32 (net (L.map Effect.call)) := by
  induction h with
  | nil => rfl
  | @concat L v _ t op ih =>
    let e : Effect T Op (BitVec 32) := ⟨t, op, op.next v⟩
    have hnet : net ((L ++ [e]).map Effect.call) = net (L.map Effect.call) + op.change := by
      simp [net, Effect.call, e]
    change op.next v = BitVec.ofInt 32 (net ((L ++ [e]).map Effect.call))
    rw [hnet, BitVec.ofInt_add, ← ih, next_eq]

/-! ## The invariant -/

/-- the thread has locked the mutex -/
def Inside : Pc → Prop
  | .load _ | .store _ _ | .unlock _ => True
  | _ => False

/-- what a thread is about to store -/
def At (value : BitVec 32) : Pc → Prop
  | .store op rv => rv = op.next value
  | _ => True

structure Inv (s : St T (CounterT T) Pc) : Prop where
  mutex : Guards Inside s.sh.mutex s.loc
  threads : ∀ t, At s.sh.value (s.loc t)

def status : Pc → Status Op (BitVec 32)
  | .out => .idle
  | .lock op | .load op | .store op _ => .called op
  | .unlock rv | .ret rv => .done rv

variable {tr es : List (Event T Op (BitVec 32))} {s : St T (CounterT T) Pc} {t : T} {op : Op} {c : CounterT T} {pc : Pc}

theorem inv_start : Inv (start : St T (CounterT T) Pc) := ⟨Guards.start fun _ => id, fun _ => trivial⟩

variable [DecidableEq T]

/-- a step that leaves the value alone -/
theorem Inv.keep (h : Inv s) {m : Mutex T} (hmutex : Guards Inside m (Function.update s.loc t pc))
    (hat : At s.sh.value pc) : Inv (s.move t { s.sh with mutex := m } pc) :=
  ⟨hmutex, s.forall_move (p := fun _ pc => At s.sh.value pc) _ hat fun u _ => h.threads u⟩

theorem inv_step (h : Inv s) (hs : prog t op s.sh (s.loc t) = some (c, pc, es)) :
    Inv (s.move t c pc) ∧ Moves counter t (status (s.loc t)) s.sh.value es (status pc) c.value := by
  have hmutex := h.mutex
  have hat := h.threads t
  cases hl : s.loc t with
  | out =>
    rw [hl] at hs
    cases hs
    exact ⟨h.keep (hmutex.stay (by rw [hl]; exact Iff.rfl)) trivial, .call op _⟩
  | lock op =>
    rw [hl] at hs
    obtain ⟨hfree, he⟩ := lock_step hs
    cases he
    rw [hfree] at hmutex
    exact ⟨h.keep (hmutex.enter trivial) trivial, .quiet _ _⟩
  | load op =>
    rw [hl] at hs
    have hstay : ∀ pc, Inside pc → Guards Inside s.sh.mutex (Function.update s.loc t pc) := fun pc hpc =>
      hmutex.stay (by rw [hl]; exact iff_of_true hpc trivial)
    cases op with
    | inc =>
      cases hs
      exact ⟨h.keep (hstay _ trivial) rfl, .quiet _ _⟩
    | dec =>
      cases hs
      exact ⟨h.keep (hstay _ trivial) rfl, .quiet _ _⟩
    | get =>
      cases hs
      exact ⟨h.keep (hstay _ trivial) trivial, .effect Op.get _⟩
  | store op rv =>
    rw [hl] at hs hat
    cases hs
    obtain rfl : rv = op.next s.sh.value := hat
    refine ⟨⟨hmutex.stay (by rw [hl]; exact Iff.rfl), ?_⟩, .effect op _⟩
    -- no other thread is between its load and its store
    refine s.forall_move (p := fun _ pc => At (op.next s.sh.value) pc) _ trivial fun u hu => ?_
    have hout := hmutex.outside (t := t) (by rw [hl]; trivial) hu
    cases hlu : s.loc u with
    | store =>
      rw [hlu] at hout
      exact absurd trivial hout
    | _ => trivial
  | unlock rv =>
    rw [hl] at hs
    cases hs
    exact ⟨h.keep (hmutex.leave (by rw [hl]; trivial) id) trivial, .quiet _ _⟩
  | ret rv =>
    rw [hl] at hs
    cases hs
    exact ⟨h.keep (hmutex.stay (by rw [hl]; exact Iff.rfl)) trivial, .ret rv _⟩

theorem run_moves {as : List (T × Op)} (h : Run prog start as tr s) :
    Inv s ∧ History.Inv counter tr s.sh.value fun t => status (s.loc t) :=
  History.run_inv Inv status CounterT.value h inv_start (fun _ => rfl) rfl fun _ _ _ _ _ _ hi hs => inv_step hi hs

/-- **Linearizability.** For any number of threads and calls, every order of the steps and at every point: the calls
have the results that they have one after another, in an order in which each takes effect between its call and its
return, and the value is that order's number of calls of `inc` less that of calls of `dec`. Whenever no call is in
progress, these are all the calls. -/
theorem counter_linearizable {as : List (T × Op)} (h : Run prog start as tr s) :
    (∃ L, Linearizes counter (actions tr) L s.sh.value ∧ s.sh.value = BitVec.ofInt 32 (net (L.map Effect.call))) ∧
      ((∀ t, s.loc t = .out) → s.sh.value = BitVec.ofInt 32 (net ((actions tr).filterMap Action.call?))) := by
  obtain ⟨-, hmoves⟩ := run_moves h
  have hlin := hmoves.linearizes
  have hvalue := legal_value hlin.legal
  refine ⟨⟨_, hlin, hvalue⟩, fun hout => ?_⟩
  have hall : ∀ t, (calls t (actions tr)).length = (returns t (actions tr)).length := by
    intro t
    have hagrees := hmoves.agrees t
    simp only [hout t] at hagrees
    obtain ⟨hops, hrets⟩ := hagrees
    rw [hops, ← hrets, List.length_map, List.length_map]
  rw [hvalue]
  exact congrArg _ ((hlin.accounts.perm hall).map _).sum_eq

/-- an increment while another thread calls `dec` and reads its result before, and then calls `inc` and has stored -/
theorem counter_linearizable_two :
    ∃ as tr s, Run prog (start : St (Fin 2) (CounterT (Fin 2)) Pc) as tr s ∧
      actions tr = [.call 0 .inc, .call 1 .dec, .ret 1 (-1), .ret 0 0, .call 1 .inc] ∧
      (∃ L, Linearizes counter (actions tr) L s.sh.value ∧ s.sh.value = BitVec.ofInt 32 (net (L.map Effect.call))) ∧
      s.sh.value = 1 := by
  obtain ⟨s, tr, h, hacts, hvalue⟩ := exec_any_run prog (start : St (Fin 2) (CounterT (Fin 2)) Pc)
    [(0, .inc), (1, .dec), (1, .dec), (1, .dec), (1, .dec), (1, .dec), (1, .dec), (0, .inc), (0, .inc), (0, .inc),
      (0, .inc), (0, .inc), (1, .inc), (1, .inc), (1, .inc), (1, .inc)]
    (fun s tr => actions tr = [.call 0 .inc, .call 1 .dec, .ret 1 (-1), .ret 0 0, .call 1 .inc] ∧ s.sh.value = 1)
    (by decide +kernel)
  exact ⟨_, tr, s, h, hacts, (counter_linearizable h).1, hvalue⟩

end OsPractice.CounterCalls
