/-
Histories of shared objects, and when they are linearizable. Library: nothing here names a program.

Threads call the operations of a shared object. A history has the calls and the returns, in the order in which they
happen. It is linearizable if the operations can be put in one order in which the object, used by one thread, gives the
same results, and in which every operation takes effect between its call and its return (`Linearizes`).

A program shows that its histories are linearizable by an event at the step at which an operation takes effect. What a
step has to do is `Moves`.

Results:
- `Accounts.before`: operations that take effect between their calls and their returns keep to real time;
- `run_inv`, `Inv.linearizes`: if every step moves so, the history of every run is linearizable;
- `Accounts.perm`: when every call has returned, the order is a permutation of the calls.
-/
import OsPractice.Core.Interleave

namespace OsPractice.History

open Interleave

/-- what an operation does to an object that one thread uses -/
structure Object (Op Ret S : Type) where
  init : S
  apply : Op → S → S × Ret

inductive Action (T Op Ret : Type) where
  | call (t : T) (op : Op)
  | ret (t : T) (r : Ret)
  deriving DecidableEq, Repr

/-- an operation that has taken effect, with its result -/
structure Effect (T Op Ret : Type) where
  thread : T
  op : Op
  ret : Ret
  deriving DecidableEq, Repr

variable {T Op Ret S : Type}

/-- the order gives the results that the object gives, and ends in the state `a` -/
inductive Legal (O : Object Op Ret S) : List (Effect T Op Ret) → S → Prop where
  | nil : Legal O [] O.init
  | concat {L : List (Effect T Op Ret)} {a : S} (h : Legal O L a) (t : T) (op : Op) :
      Legal O (L ++ [⟨t, op, (O.apply op a).2⟩]) (O.apply op a).1

section

variable [DecidableEq T]

@[simp] def Action.op? (t : T) : Action T Op Ret → Option Op
  | .call u op => if u = t then some op else none
  | .ret _ _ => none

@[simp] def Action.ret? (t : T) : Action T Op Ret → Option Ret
  | .call _ _ => none
  | .ret u r => if u = t then some r else none

/-- the operations that a thread has called -/
def calls (t : T) (h : List (Action T Op Ret)) : List Op := h.filterMap (Action.op? t)

/-- the results that have been returned to a thread -/
def returns (t : T) (h : List (Action T Op Ret)) : List Ret := h.filterMap (Action.ret? t)

def effectsOf (t : T) (L : List (Effect T Op Ret)) : List (Effect T Op Ret) := L.filter fun e => e.thread = t

/-- every thread has called the operations in the order, and what has returned is in it with its result -/
def Accounts (h : List (Action T Op Ret)) (L : List (Effect T Op Ret)) : Prop :=
  ∀ t, (effectsOf t L).map Effect.op <+: calls t h ∧ returns t h <+: (effectsOf t L).map Effect.ret

/-- the `i`-th operation of thread `t` stands at the place `x` of the order -/
def IsAt (L : List (Effect T Op Ret)) (t : T) (i x : ℕ) : Prop :=
  (∃ e, L[x]? = some e ∧ e.thread = t) ∧ (effectsOf t (L.take x)).length = i

/-- the order `L` explains the history, and keeps to real time -/
structure Linearizes (O : Object Op Ret S) (h : List (Action T Op Ret)) (L : List (Effect T Op Ret)) (a : S) :
    Prop where
  legal : Legal O L a
  accounts : Accounts h L
  /-- if the `i`-th operation of `t` has returned when the `j`-th one of `u` has not been called yet, it stands before
  it -/
  before : ∀ h' t u i j x y, h' <+: h → i < (returns t h').length → (calls u h').length ≤ j → IsAt L t i x →
    IsAt L u j y → x < y

theorem calls_append (t : T) (h h' : List (Action T Op Ret)) : calls t (h ++ h') = calls t h ++ calls t h' :=
  List.filterMap_append

theorem returns_append (t : T) (h h' : List (Action T Op Ret)) : returns t (h ++ h') = returns t h ++ returns t h' :=
  List.filterMap_append

theorem effectsOf_append (t : T) (L L' : List (Effect T Op Ret)) :
    effectsOf t (L ++ L') = effectsOf t L ++ effectsOf t L' := List.filter_append ..

end

/-! ## Steps at which operations take effect -/

inductive Event (T Op Ret : Type) where
  | call (t : T) (op : Op)
  | effect (t : T) (op : Op) (r : Ret)
  | ret (t : T) (r : Ret)
  deriving DecidableEq, Repr

@[simp] def Event.action? : Event T Op Ret → Option (Action T Op Ret)
  | .call t op => some (.call t op)
  | .effect _ _ _ => none
  | .ret t r => some (.ret t r)

@[simp] def Event.effect? : Event T Op Ret → Option (Effect T Op Ret)
  | .call _ _ => none
  | .effect t op r => some ⟨t, op, r⟩
  | .ret _ _ => none

def actions (tr : List (Event T Op Ret)) : List (Action T Op Ret) := tr.filterMap Event.action?

def effects (tr : List (Event T Op Ret)) : List (Effect T Op Ret) := tr.filterMap Event.effect?

theorem actions_append (tr es : List (Event T Op Ret)) : actions (tr ++ es) = actions tr ++ actions es :=
  List.filterMap_append

theorem effects_append (tr es : List (Event T Op Ret)) : effects (tr ++ es) = effects tr ++ effects es :=
  List.filterMap_append

/-- how far a thread is in its call -/
inductive Status (Op Ret : Type) where
  | idle
  | called (op : Op)
  | done (r : Ret)
  deriving DecidableEq, Repr

/-- a step of thread `t`: what it shows, and what it does to the thread's status and to the object -/
inductive Moves (O : Object Op Ret S) (t : T) :
    Status Op Ret → S → List (Event T Op Ret) → Status Op Ret → S → Prop where
  | quiet (st : Status Op Ret) (a : S) : Moves O t st a [] st a
  | call (op : Op) (a : S) : Moves O t .idle a [.call t op] (.called op) a
  | effect (op : Op) (a : S) :
      Moves O t (.called op) a [.effect t op (O.apply op a).2] (.done (O.apply op a).2) (O.apply op a).1
  | ret (r : Ret) (a : S) : Moves O t (.done r) a [.ret t r] .idle a

variable [DecidableEq T]

/-- what the status of a thread says of its calls, its operations in the order and its returns -/
def Agrees (calls ops : List Op) (returns rets : List Ret) : Status Op Ret → Prop
  | .idle => calls = ops ∧ rets = returns
  | .called op => calls = ops ++ [op] ∧ rets = returns
  | .done r => calls = ops ∧ rets = returns ++ [r]

/-- as `Agrees`, for the events of thread `t` -/
def AgreesAt (t : T) (tr : List (Event T Op Ret)) (st : Status Op Ret) : Prop :=
  Agrees (calls t (actions tr)) ((effectsOf t (effects tr)).map Effect.op) (returns t (actions tr))
    ((effectsOf t (effects tr)).map Effect.ret) st

structure Inv (O : Object Op Ret S) (tr : List (Event T Op Ret)) (a : S) (status : T → Status Op Ret) : Prop where
  legal : Legal O (effects tr) a
  agrees : ∀ t, AgreesAt t tr (status t)
  accounts : ∀ h', h' <+: actions tr → ∃ L', L' <+: effects tr ∧ Accounts h' L'

variable {O : Object Op Ret S} {tr es : List (Event T Op Ret)} {a a' : S} {status : T → Status Op Ret}
  {st st' : Status Op Ret} {h : List (Action T Op Ret)} {L : List (Effect T Op Ret)} {t u : T}

omit [DecidableEq T] in
theorem Agrees.initial {cs ops : List Op} {rs rets : List Ret} (hs : Agrees cs ops rs rets st) :
    ops <+: cs ∧ rs <+: rets := by
  cases st with
  | idle =>
    obtain ⟨rfl, rfl⟩ := hs
    exact ⟨List.prefix_rfl, List.prefix_rfl⟩
  | called op =>
    obtain ⟨rfl, rfl⟩ := hs
    exact ⟨List.prefix_append _ _, List.prefix_rfl⟩
  | done r =>
    obtain ⟨rfl, rfl⟩ := hs
    exact ⟨List.prefix_rfl, List.prefix_append _ _⟩

theorem inv_start (O : Object Op Ret S) : Inv O ([] : List (Event T Op Ret)) O.init fun _ => .idle where
  legal := .nil
  agrees _ := ⟨rfl, rfl⟩
  accounts h' hh' := by
    obtain rfl := List.prefix_nil.1 hh'
    exact ⟨[], List.prefix_rfl, fun _ => ⟨List.prefix_rfl, List.prefix_rfl⟩⟩

/-- the step of another thread -/
theorem Moves.other (hm : Moves O t st a es st' a') (hu : t ≠ u) {st₁ : Status Op Ret} (hs : AgreesAt u tr st₁) :
    AgreesAt u (tr ++ es) st₁ := by
  have hnone : calls u (actions es) = [] ∧ returns u (actions es) = [] ∧ effectsOf u (effects es) = [] := by
    cases hm <;> simp [actions, effects, calls, returns, effectsOf, List.filterMap_cons, hu]
  obtain ⟨hcalls, hreturns, heffects⟩ := hnone
  rw [AgreesAt, actions_append, effects_append, calls_append, returns_append, effectsOf_append, hcalls, hreturns,
    heffects, List.append_nil, List.append_nil, List.append_nil]
  exact hs

/-- the step of the thread itself -/
theorem Moves.self (hm : Moves O t st a es st' a') (hs : AgreesAt t tr st) : AgreesAt t (tr ++ es) st' := by
  rw [AgreesAt, actions_append, effects_append, calls_append, returns_append, effectsOf_append, List.map_append,
    List.map_append]
  rw [AgreesAt] at hs
  cases hm with
  | quiet => simpa [actions, effects, calls, returns, effectsOf] using hs
  | call op =>
    obtain ⟨hops, hrets⟩ := hs
    refine ⟨?_, ?_⟩
    · rw [hops]
      simp [actions, effects, calls, effectsOf, List.filterMap_cons]
    · rw [hrets]
      simp [actions, effects, returns, effectsOf, List.filterMap_cons]
  | effect op =>
    obtain ⟨hops, hrets⟩ := hs
    refine ⟨?_, ?_⟩
    · rw [hops]
      simp [actions, effects, calls, effectsOf, List.filterMap_cons]
    · rw [hrets]
      simp [actions, effects, returns, effectsOf, List.filterMap_cons]
  | ret r =>
    obtain ⟨hops, hrets⟩ := hs
    refine ⟨?_, ?_⟩
    · rw [hops]
      simp [actions, effects, calls, effectsOf, List.filterMap_cons]
    · rw [hrets]
      simp [actions, effects, returns, effectsOf, List.filterMap_cons]

omit [DecidableEq T] in
theorem Moves.legal (hm : Moves O t st a es st' a') (hL : Legal O L a) : Legal O (L ++ effects es) a' := by
  cases hm with
  | effect op => exact hL.concat t op
  | _ => simpa [effects, List.filterMap_cons] using hL

omit [DecidableEq T] in
/-- a step shows at most one call or return -/
theorem Moves.single (hm : Moves O t st a es st' a') : actions es = [] ∨ ∃ x, actions es = [x] := by
  cases hm with
  | quiet | effect => exact .inl rfl
  | call op => exact .inr ⟨.call t op, rfl⟩
  | ret r => exact .inr ⟨.ret t r, rfl⟩

theorem Inv.step (hi : Inv O tr a status) (hm : Moves O t (status t) a es st' a') :
    Inv O (tr ++ es) a' (Function.update status t st') := by
  have hagrees : ∀ u, AgreesAt u (tr ++ es) (Function.update status t st' u) := by
    refine (Function.forall_update_iff status fun u st => AgreesAt u (tr ++ es) st).2 ⟨?_, fun u hu => ?_⟩
    · exact hm.self (hi.agrees t)
    · exact hm.other hu.symm (hi.agrees u)
  refine ⟨by rw [effects_append]; exact hm.legal hi.legal, hagrees, fun h' hh' => ?_⟩
  have hold : h' <+: actions tr → ∃ L', L' <+: effects (tr ++ es) ∧ Accounts h' L' := by
    intro hbefore
    obtain ⟨L', hL', hacc⟩ := hi.accounts h' hbefore
    rw [effects_append]
    exact ⟨L', hL'.trans (List.prefix_append _ _), hacc⟩
  have hwhole : Accounts (actions (tr ++ es)) (effects (tr ++ es)) := fun u => (hagrees u).initial
  rw [actions_append] at hh' hwhole
  rcases hm.single with hnone | ⟨x, hx⟩
  · rw [hnone, List.append_nil] at hh'
    exact hold hh'
  · rw [hx] at hh' hwhole
    rcases List.prefix_concat_iff.1 hh' with rfl | hbefore
    · exact ⟨_, List.prefix_rfl, hwhole⟩
    · exact hold hbefore

/-- what has returned is in a beginning of the order that has nothing that has not been called -/
theorem Accounts.before {L' : List (Effect T Op Ret)} (hacc : Accounts h L') (hL' : L' <+: L) {i j x y : ℕ}
    (hret : i < (returns t h).length) (hcall : (calls u h).length ≤ j) (hx : IsAt L t i x) (hy : IsAt L u j y) :
    x < y := by
  obtain ⟨-, hi⟩ := hx
  obtain ⟨⟨e, he, hthread⟩, hj⟩ := hy
  have hreturned := (hacc t).2.length_le
  have hcalled := (hacc u).1.length_le
  rw [List.length_map] at hreturned hcalled
  have hxlt : x < L'.length := by
    by_contra hge
    have hpre : L' <+: L.take x := List.prefix_take_iff.2 ⟨hL', not_lt.1 hge⟩
    have hlen := (hpre.filter fun e => e.thread = t).length_le
    change (effectsOf t L').length ≤ (effectsOf t (L.take x)).length at hlen
    omega
  have hyge : L'.length ≤ y := by
    by_contra hlt
    have htake : L.take (y + 1) <+: L' :=
      List.prefix_of_prefix_length_le (List.take_prefix _ _) hL' ((List.length_take_le _ _).trans (by omega))
    have hnext : L.take (y + 1) = L.take y ++ [e] := by
      rw [List.take_add_one, he]
      rfl
    have hone : effectsOf u (L.take (y + 1)) = effectsOf u (L.take y) ++ [e] := by
      rw [hnext, effectsOf_append]
      exact congrArg _ (List.filter_cons_of_pos (by simpa using hthread))
    have hlen := (htake.filter fun e => e.thread = u).length_le
    change (effectsOf u (L.take (y + 1))).length ≤ (effectsOf u L').length at hlen
    rw [hone, List.length_append, List.length_singleton] at hlen
    omega
  omega

/-- the history of the calls and returns is linearizable -/
theorem Inv.linearizes (hi : Inv O tr a status) : Linearizes O (actions tr) (effects tr) a where
  legal := hi.legal
  accounts t := (hi.agrees t).initial
  before h' t u i j x y hh' hret hcall hx hy := by
    obtain ⟨L', hL', hacc⟩ := hi.accounts h' hh'
    exact hacc.before hL' hret hcall hx hy

/-- **Runs.** If every step of a program, from a state with the property `I`, keeps `I` and moves the status of its
thread and the state of the object as `Moves` says, every run does so. -/
theorem run_inv {C X L : Type} {P : Prog T C X L (Event T Op Ret)} (I : St T X L → Prop) (status : L → Status Op Ret)
    (value : X → S) {s₀ s : St T X L} {as : List (T × C)} (h : Run P s₀ as tr s) (h0 : I s₀)
    (hidle : ∀ t, status (s₀.loc t) = .idle) (hinit : value s₀.sh = O.init)
    (hstep : ∀ s t c x l es, I s → P t c s.sh (s.loc t) = some (x, l, es) →
      I (s.move t x l) ∧ Moves O t (status (s.loc t)) (value s.sh) es (status l) (value x)) :
    I s ∧ Inv O tr (value s.sh) fun t => status (s.loc t) := by
  refine h.inv_trace (I := fun tr s => I s ∧ Inv O tr (value s.sh) fun t => status (s.loc t)) ?_ ?_
  · refine ⟨h0, ?_⟩
    rw [hinit, funext hidle]
    exact inv_start O
  · intro tr s t c x l es hi hs
    obtain ⟨hI, hm⟩ := hstep s t c x l es hi.1 hs
    have hloc : (fun u => status ((s.move t x l).loc u)) = Function.update (fun u => status (s.loc u)) t (status l) :=
      Function.comp_update status s.loc t l
    refine ⟨hI, ?_⟩
    rw [hloc]
    exact hi.2.step hm

/-! ## What it means -/

/-- when every call has returned, the order has all operations with the results they returned -/
theorem Accounts.complete (hacc : Accounts h L) (hall : ∀ t, (calls t h).length = (returns t h).length) (t : T) :
    (effectsOf t L).map Effect.op = calls t h ∧ (effectsOf t L).map Effect.ret = returns t h := by
  obtain ⟨hops, hrets⟩ := hacc t
  have hops' := hops.length_le
  have hrets' := hrets.length_le
  have hlen := hall t
  rw [List.length_map] at hops' hrets'
  exact ⟨hops.eq_of_length (by rw [List.length_map]; omega), (hrets.eq_of_length (by rw [List.length_map]; omega)).symm⟩

def Effect.call (e : Effect T Op Ret) : T × Op := (e.thread, e.op)

def Action.call? : Action T Op Ret → Option (T × Op)
  | .call t op => some (t, op)
  | .ret _ _ => none

/-- when every call has returned, the order is a permutation of the calls -/
theorem Accounts.perm [DecidableEq Op] (hacc : Accounts h L)
    (hall : ∀ t, (calls t h).length = (returns t h).length) :
    (L.map Effect.call).Perm (h.filterMap Action.call?) := by
  refine List.perm_iff_count.2 fun ⟨t, op⟩ => ?_
  have horder : (L.map Effect.call).count (t, op) = ((effectsOf t L).map Effect.op).count op := by
    rw [List.count, List.countP_map, List.count, List.countP_map, effectsOf, List.countP_filter]
    refine List.countP_congr fun e _ => ?_
    simp [Effect.call, and_comm]
  have hcalls : (h.filterMap Action.call?).count (t, op) = (calls t h).count op := by
    rw [List.count, List.countP_filterMap, List.count, calls, List.countP_filterMap]
    refine List.countP_congr fun x _ => ?_
    cases x with
    | ret u r => simp [Action.call?]
    | call u op' =>
      by_cases hu : u = t
      · subst hu
        simp [Action.call?]
      · simp [Action.call?, hu]
  rw [horder, hcalls, (hacc.complete hall t).1]

end OsPractice.History
