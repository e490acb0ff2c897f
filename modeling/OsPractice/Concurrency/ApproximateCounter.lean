/-
The approximate counter (`concurrency/approximate_counter.c`): a local count for each of `NUMCPUS` slots, each with a
mutex of its own, and a global count with another. An update that brings its local count to the threshold adds it to the
global count and resets it.

Every lock, unlock, load and store of a count is one step, so a `get` may run between the transfer of a local count and
its reset. A count is an integer without a bound. A thread makes any list of calls; the slot of a call is
`threadID % NUMCPUS`, and a call for which that is no index takes no step.

Who holds a slot's mutex determines what the slot's count stands for (`net`): the count without what has been transferred
already, and without the amount of the update that has not returned. What all slots stand for is what the global count
misses of the updates that have returned (`Inv.exact`).

Results:
- `approximate_counter`: the bounds of `get`, that it never decreases, and the exact total while no update is running.
-/
import OsPractice.Core.Interleave
import OsPractice.Core.Monitor

namespace OsPractice.ApproximateCounter

open Interleave Monitor

/-! ## Model -/

def NUMCPUS : ℕ := 8

structure CounterT (T : Type) where
  global : ℤ
  glock : Mutex T
  locals : Fin NUMCPUS → ℤ
  llock : Fin NUMCPUS → Mutex T
  threshold : ℤ

def init {T : Type} (threshold : ℤ) : CounterT T := ⟨0, none, fun _ => 0, fun _ => none, threshold⟩

/-- `threadID % NUMCPUS` as an index; the remainder of a negative number is negative or zero -/
def cpuOf (threadID : ℤ) : Option (Fin NUMCPUS) :=
  if h : (threadID.tmod NUMCPUS).toNat < NUMCPUS ∧ 0 ≤ threadID.tmod NUMCPUS then some ⟨_, h.1⟩ else none

inductive UpdatePc where
  | lockLocal
  | loadLocal
  | storeLocal (v : ℤ)
  | test
  | lockGlobal
  | loadGlobal
  | loadAmount (g : ℤ)
  | storeGlobal (v : ℤ)
  | unlockGlobal
  | resetLocal
  | unlockLocal
  deriving DecidableEq, Repr

inductive GetPc where
  | lock
  | load
  | unlock (val : ℤ)
  deriving DecidableEq, Repr

variable {T : Type} [DecidableEq T]

def CounterT.setLocal (m : CounterT T) (cpu : Fin NUMCPUS) (v : ℤ) : CounterT T :=
  { m with locals := Function.update m.locals cpu v }

def CounterT.setLlock (m : CounterT T) (cpu : Fin NUMCPUS) (l : Mutex T) : CounterT T :=
  { m with llock := Function.update m.llock cpu l }

def update (t : T) (m : CounterT T) (cpu : Fin NUMCPUS) (amt : ℤ) : UpdatePc → Option (CounterT T × Option UpdatePc)
  | .lockLocal => (lock t (m.llock cpu)).map fun l => (m.setLlock cpu l, some .loadLocal)
  | .loadLocal => some (m, some (.storeLocal (m.locals cpu)))
  | .storeLocal v => some (m.setLocal cpu (v + amt), some .test)
  | .test => if m.locals cpu ≥ m.threshold then some (m, some .lockGlobal) else some (m, some .unlockLocal)
  | .lockGlobal => (lock t m.glock).map fun l => ({ m with glock := l }, some .loadGlobal)
  | .loadGlobal => some (m, some (.loadAmount m.global))
  | .loadAmount g => some (m, some (.storeGlobal (g + m.locals cpu)))
  | .storeGlobal v => some ({ m with global := v }, some .unlockGlobal)
  | .unlockGlobal => some ({ m with glock := none }, some .resetLocal)
  | .resetLocal => some (m.setLocal cpu 0, some .unlockLocal)
  | .unlockLocal => some (m.setLlock cpu none, none)

def get (t : T) (m : CounterT T) : GetPc → Option (CounterT T × Option GetPc)
  | .lock => (lock t m.glock).map fun l => ({ m with glock := l }, some .load)
  | .load => some (m, some (.unlock m.global))
  | .unlock _ => some ({ m with glock := none }, none)

inductive Op where
  | update (threadID amt : ℤ)
  | get
  deriving DecidableEq, Repr

inductive Running where
  | update (cpu : Fin NUMCPUS) (amt : ℤ) (p : UpdatePc)
  | get (p : GetPc)
  deriving DecidableEq, Repr

/-- a thread: the call it is in, and the calls it has yet to make -/
structure Loc where
  running : Option Running
  todo : List Op
  deriving DecidableEq, Repr

inductive Event (T : Type) where
  /-- `update` has been called -/
  | begun (t : T) (threadID amt : ℤ)
  /-- `update` has returned -/
  | returned (t : T) (amt : ℤ)
  /-- `get` has locked `glock` -/
  | locked (t : T)
  /-- `get` has returned this value -/
  | got (t : T) (val : ℤ)
  deriving DecidableEq, Repr

def updateShows (t : T) (amt : ℤ) : UpdatePc → List (Event T)
  | .unlockLocal => [.returned t amt]
  | _ => []

def getShows (t : T) : GetPc → List (Event T)
  | .lock => [.locked t]
  | .load => []
  | .unlock val => [.got t val]

def prog : Prog T Unit (CounterT T) Loc (Event T) := fun t _ m l =>
  match l.running, l.todo with
  | none, [] => none
  | none, .update threadID amt :: todo =>
    (cpuOf threadID).map fun cpu => (m, ⟨some (.update cpu amt .lockLocal), todo⟩, [.begun t threadID amt])
  | none, .get :: todo => some (m, ⟨some (.get .lock), todo⟩, [])
  | some (.update cpu amt p), todo =>
    (update t m cpu amt p).map fun r => (r.1, ⟨r.2.map (.update cpu amt), todo⟩, updateShows t amt p)
  | some (.get p), todo => (get t m p).map fun r => (r.1, ⟨r.2.map .get, todo⟩, getShows t p)

def start (threshold : ℤ) (todo : T → List Op) : St T (CounterT T) Loc := ⟨init threshold, fun t => ⟨none, todo t⟩⟩

def Event.begunAmt : Event T → ℤ
  | .begun _ _ amt => amt
  | _ => 0

def Event.returnedAmt : Event T → ℤ
  | .returned _ amt => amt
  | _ => 0

def Event.gotVal : Event T → Option ℤ
  | .got _ val => some val
  | _ => none

/-- the sum of the amounts of the updates begun -/
def begunSum (tr : List (Event T)) : ℤ := (tr.map Event.begunAmt).sum

/-- the sum of the amounts of the updates that have returned -/
def returnedSum (tr : List (Event T)) : ℤ := (tr.map Event.returnedAmt).sum

/-- the values that `get` has returned, in order -/
def gots (tr : List (Event T)) : List ℤ := tr.filterMap Event.gotVal

omit [DecidableEq T] in
@[simp] theorem begunSum_append (tr es : List (Event T)) : begunSum (tr ++ es) = begunSum tr + begunSum es := by
  simp [begunSum]

omit [DecidableEq T] in
@[simp] theorem returnedSum_append (tr es : List (Event T)) :
    returnedSum (tr ++ es) = returnedSum tr + returnedSum es := by
  simp [returnedSum]

omit [DecidableEq T] in
@[simp] theorem returnedSum_updateShows (t : T) (amt : ℤ) (p : UpdatePc) :
    returnedSum (updateShows t amt p) = if p = .unlockLocal then amt else 0 := by
  rcases p <;> simp [returnedSum, updateShows, Event.returnedAmt]

/-! ## What holds at the points of the code -/

/-- has the mutex of slot `i` -/
def inLocal (i : Fin NUMCPUS) (l : Loc) : Prop :=
  match l.running with
  | some (.update cpu _ p) => cpu = i ∧ p ≠ .lockLocal
  | _ => False

/-- has `glock` -/
def inGlobal (l : Loc) : Prop :=
  match l.running with
  | some (.update _ _ p) =>
    match p with
    | .loadGlobal | .loadAmount _ | .storeGlobal _ | .unlockGlobal => True
    | _ => False
  | some (.get p) => p ≠ .lock
  | none => False

/-- what an update of `amt` knows of its local count `x` and the global count `g` -/
def AtUpdate (threshold x g amt : ℤ) : UpdatePc → Prop
  | .lockLocal => True
  | .loadLocal => 0 ≤ x ∧ x < threshold
  | .storeLocal v => v = x ∧ 0 ≤ x ∧ x < threshold
  | .test | .lockGlobal | .loadGlobal => amt ≤ x ∧ x - amt < threshold
  | .loadAmount v => v = g ∧ amt ≤ x ∧ x - amt < threshold
  | .storeGlobal v => v = g + x ∧ amt ≤ x ∧ x - amt < threshold
  | .unlockGlobal | .resetLocal => True
  | .unlockLocal => 0 ≤ x ∧ x < threshold

/-- what a thread knows of the counts -/
def At (m : CounterT T) (l : Loc) : Prop :=
  match l.running with
  | some (.update cpu amt p) => 0 ≤ amt ∧ AtUpdate m.threshold (m.locals cpu) m.global amt p
  | some (.get (.unlock val)) => val = m.global
  | _ => True

/-- the calls to come have amounts that are not negative -/
def Nonneg (todo : List Op) : Prop := ∀ threadID amt, Op.update threadID amt ∈ todo → 0 ≤ amt

/-- the amount of an update that has yet to add it to its local count -/
def waiting (l : Loc) : ℤ :=
  match l.running with
  | some (.update _ amt p) =>
    match p with
    | .lockLocal | .loadLocal | .storeLocal _ => amt
    | _ => 0
  | _ => 0

/-- the amount of an update that has added it to its local count -/
def landed : Option Loc → ℤ
  | some ⟨some (.update _ amt p), _⟩ =>
    match p with
    | .lockLocal | .loadLocal | .storeLocal _ => 0
    | _ => amt
  | _ => 0

/-- what a local count of `x` stands for: the part that is not in the global count, less the amount that has landed -/
def net (x : ℤ) : Option Loc → ℤ
  | some ⟨some (.update _ amt p), _⟩ =>
    match p with
    | .lockLocal | .loadLocal | .storeLocal _ => x
    | .unlockGlobal | .resetLocal => - amt
    | _ => x - amt
  | _ => x

/-- the thread that holds the mutex of slot `i` -/
def holder (s : St T (CounterT T) Loc) (i : Fin NUMCPUS) : Option Loc := (s.sh.llock i).map s.loc

variable [Fintype T]

/-- `C` and `S` are the sums of the amounts of the updates that have returned, and that have begun -/
structure Inv (threshold C S : ℤ) (s : St T (CounterT T) Loc) : Prop where
  threshold_eq : s.sh.threshold = threshold
  glock : Guards inGlobal s.sh.glock s.loc
  llock : ∀ i, Guards (inLocal i) (s.sh.llock i) s.loc
  at_ : ∀ t, At s.sh (s.loc t)
  todo : ∀ t, Nonneg (s.loc t).todo
  free : ∀ i, s.sh.llock i = none → 0 ≤ s.sh.locals i ∧ s.sh.locals i < threshold
  exact : s.sh.global + ∑ i, net (s.sh.locals i) (holder s i) = C
  begun : C + ∑ i, landed (holder s i) + ∑ t, waiting (s.loc t) = S

omit [DecidableEq T] in
theorem Inv.start {threshold : ℤ} (hT : 1 ≤ threshold) {todo : T → List Op} (hamt : ∀ t, Nonneg (todo t)) :
    Inv threshold 0 0 (start threshold todo) where
  threshold_eq := rfl
  glock := Guards.start fun _ => by simp [ApproximateCounter.start, inGlobal]
  llock i := Guards.start fun _ => by simp [ApproximateCounter.start, inLocal]
  at_ t := trivial
  todo := hamt
  free i _ := ⟨le_rfl, hT⟩
  exact := by simp [ApproximateCounter.start, init, net, holder]
  begun := by simp [ApproximateCounter.start, init, landed, holder, waiting]

variable {threshold C S : ℤ} {s : St T (CounterT T) Loc} {t : T} {m : CounterT T} {l : Loc} {es : List (Event T)}

omit [DecidableEq T] [Fintype T] in
/-- what a thread knows survives a step of another -/
theorem At.frame {m m' : CounterT T} {l : Loc} (h : At m l) (ht : m'.threshold = m.threshold)
    (hg : inGlobal l → m'.global = m.global) (hl : ∀ i, inLocal i l → m'.locals i = m.locals i) : At m' l := by
  obtain ⟨r, todo⟩ := l
  rcases r with _ | ⟨cpu, amt, p⟩ | p
  · trivial
  · obtain ⟨h0, h1⟩ := h
    refine ⟨h0, ?_⟩
    rcases p with _ | _ | _ | _ | _ | _ | _ | _ | _ | _ | _
    case lockLocal => trivial
    case loadAmount | storeGlobal =>
      rw [ht, hg trivial, hl cpu ⟨rfl, by simp⟩]
      exact h1
    all_goals
      rw [hl cpu ⟨rfl, by simp⟩, ht]
      exact h1
  · rcases p with _ | _ | val
    case unlock => exact h.trans (hg (by simp [inGlobal])).symm
    all_goals trivial

/-- a step keeps what each thread knows, if it keeps it for the thread that moves and changes only what its mutexes
protect -/
theorem Inv.at_move (h : Inv threshold C S s) (ht : m.threshold = s.sh.threshold) (hat : At m l)
    (hg : m.global = s.sh.global ∨ inGlobal (s.loc t))
    (hl : ∀ i, m.locals i = s.sh.locals i ∨ inLocal i (s.loc t)) : ∀ u, At m (Function.update s.loc t l u) := by
  refine s.forall_move (p := fun _ l => At m l) m hat fun u hu => ?_
  refine (h.at_ u).frame ht ?_ ?_
  · intro hin
    exact hg.resolve_right fun hin' => hu (h.glock.unique hin hin')
  · intro i hin
    exact (hl i).resolve_right fun hin' => hu ((h.llock i).unique hin hin')

omit [Fintype T] in
theorem todo_move (h : ∀ t, Nonneg (s.loc t).todo) (hl : l.todo ⊆ (s.loc t).todo) :
    ∀ u, Nonneg (Function.update s.loc t l u).todo :=
  s.forall_move (p := fun _ l => Nonneg l.todo) s.sh (fun id amt hm => h t id amt (hl hm)) fun u _ => h u

omit [Fintype T] in
/-- the slots that a step leaves alone have the holders they had -/
theorem holder_move {i : Fin NUMCPUS} (hm : m.llock i = s.sh.llock i) (hl : s.sh.llock i ≠ some t) :
    holder (s.move t m l) i = holder s i := by
  unfold holder
  rw [St.move_sh, hm, St.move_loc]
  cases hi : s.sh.llock i with
  | none => rfl
  | some u =>
    have hu : u ≠ t := by
      rintro rfl
      exact hl hi
    simp [Function.update_of_ne hu]

omit [DecidableEq T] [Fintype T] in
theorem holder_none {i : Fin NUMCPUS} (h : s.sh.llock i = none) : holder s i = none := by
  simp [holder, h]

omit [DecidableEq T] [Fintype T] in
theorem holder_some {i : Fin NUMCPUS} (h : s.sh.llock i = some t) : holder s i = some (s.loc t) := by
  simp [holder, h]

theorem sum_waiting_move : ∑ u, waiting ((s.move t m l).loc u) =
    ∑ u, waiting (s.loc u) + (waiting l - waiting (s.loc t)) := by
  rw [sum_change (f := fun u => waiting (s.loc u)) t]
  · simp
  · intro u hu
    simp [Function.update_of_ne hu]

omit [Fintype T] in
/-- a sum over the slots changes by what changes at the slot of the thread that moves -/
theorem sum_slots_move (f : ℤ → Option Loc → ℤ) {cpu : Fin NUMCPUS}
    (hm : ∀ i, i ≠ cpu → m.llock i = s.sh.llock i ∧ s.sh.llock i ≠ some t ∧ m.locals i = s.sh.locals i) :
    ∑ i, f (m.locals i) (holder (s.move t m l) i) = ∑ i, f (s.sh.locals i) (holder s i) +
      (f (m.locals cpu) (holder (s.move t m l) cpu) - f (s.sh.locals cpu) (holder s cpu)) := by
  refine sum_change cpu fun i hi => ?_
  obtain ⟨h1, h2, h3⟩ := hm i hi
  rw [holder_move h1 h2, h3]

theorem inLocal_inj {i j : Fin NUMCPUS} (hi : inLocal i l) (hj : inLocal j l) : i = j := by
  obtain ⟨r, todo⟩ := l
  rcases r with _ | ⟨cpu, amt, p⟩ | p
  · exact hi.elim
  · exact hi.1.symm.trans hj.1
  · exact hi.elim

/-- the two sums after a step that touches one slot, at which `c` is added to what has returned -/
theorem Inv.sums (h : Inv threshold C S s) {cpu : Fin NUMCPUS} {o o' : Option Loc} (c : ℤ)
    (hm : ∀ i, i ≠ cpu → m.llock i = s.sh.llock i ∧ s.sh.llock i ≠ some t ∧ m.locals i = s.sh.locals i)
    (ho : holder s cpu = o) (ho' : holder (s.move t m l) cpu = o')
    (hnet : m.global + net (m.locals cpu) o' = s.sh.global + net (s.sh.locals cpu) o + c)
    (hland : c + landed o' + waiting l = landed o + waiting (s.loc t)) :
    m.global + ∑ i, net (m.locals i) (holder (s.move t m l) i) = C + c ∧
      C + c + ∑ i, landed (holder (s.move t m l) i) + ∑ u, waiting ((s.move t m l).loc u) = S := by
  have h1 := sum_slots_move (l := l) net hm
  have h2 := sum_slots_move (l := l) (fun _ => landed) hm
  have h3 := h.exact
  have h4 := h.begun
  rw [ho, ho'] at h1 h2
  rw [sum_waiting_move, h1, h2]
  omega

/-- a step of an update that has the mutex of its slot, and keeps it -/
theorem Inv.inside (h : Inv threshold C S s) {cpu : Fin NUMCPUS} (hcpu : inLocal cpu (s.loc t)) (hcpu' : inLocal cpu l)
    (hlk : m.llock = s.sh.llock) (ht : m.threshold = s.sh.threshold)
    (hloc : ∀ i, i ≠ cpu → m.locals i = s.sh.locals i) (hg : Guards inGlobal m.glock (Function.update s.loc t l))
    (hat : At m l) (hglob : m.global = s.sh.global ∨ inGlobal (s.loc t)) (htodo : l.todo ⊆ (s.loc t).todo)
    (hnet : m.global + net (m.locals cpu) (some l) = s.sh.global + net (s.sh.locals cpu) (some (s.loc t)))
    (hland : landed (some l) + waiting l = landed (some (s.loc t)) + waiting (s.loc t)) :
    Inv threshold C S (s.move t m l) := by
  have hm : s.sh.llock cpu = some t := (h.llock cpu t).2 hcpu
  have hne : ∀ i, i ≠ cpu → s.sh.llock i ≠ some t := fun i hi hlt => hi (inLocal_inj ((h.llock i t).1 hlt) hcpu)
  have hold : holder s cpu = some (s.loc t) := holder_some hm
  have hold' : holder (s.move t m l) cpu = some l := by
    rw [holder_some (t := t) (by rw [St.move_sh, hlk, hm])]
    simp
  obtain ⟨hexact, hbegun⟩ := h.sums 0 (fun i hi => ⟨congrFun hlk i, hne i hi, hloc i hi⟩) hold hold' (by omega) (by omega)
  rw [add_zero] at hexact hbegun
  exact {
    threshold_eq := ht.trans h.threshold_eq
    glock := hg
    llock := by
      intro i
      rw [St.move_sh, hlk]
      refine (h.llock i).stay ⟨fun hi => ?_, fun hi => ?_⟩
      · rwa [inLocal_inj hi hcpu']
      · rwa [inLocal_inj hi hcpu]
    at_ := by
      refine h.at_move ht hat hglob fun i => ?_
      by_cases hi : i = cpu
      · exact .inr (hi ▸ hcpu)
      · exact .inl (hloc i hi)
    todo := todo_move h.todo htodo
    free := by
      intro i hi
      rw [St.move_sh, hlk] at hi
      have hic : i ≠ cpu := by
        rintro rfl
        rw [hm] at hi
        cases hi
      rw [St.move_sh, hloc i hic]
      exact h.free i hi
    exact := hexact
    begun := hbegun }

/-- a step of a thread that has the mutex of no slot, before and after; `a` is the amount of an update that it begins -/
theorem Inv.outside (h : Inv threshold C S s) (hout : ∀ i, ¬ inLocal i (s.loc t)) (hout' : ∀ i, ¬ inLocal i l)
    (hm : m = { s.sh with glock := m.glock }) (hg : Guards inGlobal m.glock (Function.update s.loc t l)) (hat : At m l)
    (htodo : l.todo ⊆ (s.loc t).todo) (a : ℤ) (hw : waiting l = waiting (s.loc t) + a) :
    Inv threshold C (S + a) (s.move t m l) := by
  have hne : ∀ i, s.sh.llock i ≠ some t := fun i hlt => hout i ((h.llock i t).1 hlt)
  have hl : m.llock = s.sh.llock := by rw [hm]
  have hx : m.locals = s.sh.locals := by rw [hm]
  have hgl : m.global = s.sh.global := by rw [hm]
  have ht : m.threshold = s.sh.threshold := by rw [hm]
  have hold : ∀ i, holder (s.move t m l) i = holder s i := fun i => holder_move (congrFun hl i) (hne i)
  exact {
    threshold_eq := ht.trans h.threshold_eq
    glock := hg
    llock := by
      intro i
      rw [St.move_sh, hl]
      exact (h.llock i).stay ⟨fun hi => absurd hi (hout' i), fun hi => absurd hi (hout i)⟩
    at_ := h.at_move ht hat (.inl hgl) fun i => .inl (congrFun hx i)
    todo := todo_move h.todo htodo
    free := by
      rw [St.move_sh, hl, hx]
      exact h.free
    exact := by
      simp only [St.move_sh, hold, hx, hgl]
      exact h.exact
    begun := by
      have h1 := h.begun
      simp only [hold]
      rw [sum_waiting_move]
      omega }

/-- `pthread_mutex_lock` on the mutex of the slot -/
theorem Inv.lockLocal (h : Inv threshold C S s) {cpu : Fin NUMCPUS} {amt : ℤ} {todo : List Op}
    (hl : s.loc t = ⟨some (.update cpu amt .lockLocal), todo⟩) (hf : s.sh.llock cpu = none) :
    Inv threshold C S (s.move t (s.sh.setLlock cpu (some t)) ⟨some (.update cpu amt .loadLocal), todo⟩) := by
  have hat := h.at_ t
  rw [hl] at hat
  have hlock : ∀ i, i ≠ cpu → (s.sh.setLlock cpu (some t)).llock i = s.sh.llock i :=
    fun i hi => Function.update_of_ne hi _ _
  have hout : ∀ i, ¬ inLocal i (s.loc t) := fun i => by simp [hl, inLocal]
  have hsame : ∀ i, i ≠ cpu → (s.sh.setLlock cpu (some t)).llock i = s.sh.llock i ∧ s.sh.llock i ≠ some t ∧
      (s.sh.setLlock cpu (some t)).locals i = s.sh.locals i :=
    fun i hi => ⟨hlock i hi, fun hlt => hout i ((h.llock i t).1 hlt), rfl⟩
  have hold : holder s cpu = none := holder_none hf
  have hold' : holder (s.move t (s.sh.setLlock cpu (some t)) ⟨some (.update cpu amt .loadLocal), todo⟩) cpu =
      some ⟨some (.update cpu amt .loadLocal), todo⟩ := by
    rw [holder_some (t := t) (by simp [CounterT.setLlock])]
    simp
  obtain ⟨hexact, hbegun⟩ := h.sums 0 hsame hold hold' (by simp [net, CounterT.setLlock]) (by simp [hl, landed, waiting])
  rw [add_zero] at hexact hbegun
  exact {
    threshold_eq := h.threshold_eq
    glock := h.glock.stay (by simp [hl, inGlobal])
    llock := by
      intro i
      by_cases hi : i = cpu
      · subst hi
        have hg := h.llock i
        rw [hf] at hg
        simpa [CounterT.setLlock] using
          hg.enter (t := t) (l := ⟨some (.update i amt .loadLocal), todo⟩) (by simp [inLocal])
      · rw [St.move_sh, hlock i hi]
        exact (h.llock i).stay ⟨fun hi' => absurd hi'.1.symm hi, fun hi' => absurd hi' (hout i)⟩
    at_ := by
      refine h.at_move rfl ⟨hat.1, ?_⟩ (.inl rfl) fun i => .inl rfl
      have := h.free cpu hf
      rwa [← h.threshold_eq] at this
    todo := todo_move h.todo (by rw [hl]; exact List.Subset.refl _)
    free := by
      intro i hi
      by_cases hic : i = cpu
      · subst hic
        simp [CounterT.setLlock] at hi
      · rw [St.move_sh, hlock i hic] at hi
        exact h.free i hi
    exact := hexact
    begun := hbegun }

/-- `pthread_mutex_unlock` on the mutex of the slot, with which the update returns -/
theorem Inv.unlockLocal (h : Inv threshold C S s) {cpu : Fin NUMCPUS} {amt : ℤ} {todo : List Op}
    (hl : s.loc t = ⟨some (.update cpu amt .unlockLocal), todo⟩) :
    Inv threshold (C + amt) S (s.move t (s.sh.setLlock cpu none) ⟨none, todo⟩) := by
  have hat := h.at_ t
  rw [hl] at hat
  have hin : inLocal cpu (s.loc t) := by rw [hl]; exact ⟨rfl, by simp⟩
  have hm : s.sh.llock cpu = some t := (h.llock cpu t).2 hin
  have hlock : ∀ i, i ≠ cpu → (s.sh.setLlock cpu none).llock i = s.sh.llock i := fun i hi => Function.update_of_ne hi _ _
  have hsame : ∀ i, i ≠ cpu → (s.sh.setLlock cpu none).llock i = s.sh.llock i ∧ s.sh.llock i ≠ some t ∧
      (s.sh.setLlock cpu none).locals i = s.sh.locals i :=
    fun i hi => ⟨hlock i hi, fun hlt => hi (inLocal_inj ((h.llock i t).1 hlt) hin), rfl⟩
  have hold : holder s cpu = some (s.loc t) := holder_some hm
  have hold' : holder (s.move t (s.sh.setLlock cpu none) ⟨none, todo⟩) cpu = none :=
    holder_none (by simp [CounterT.setLlock])
  have hnet : s.sh.global + s.sh.locals cpu = s.sh.global + net (s.sh.locals cpu) (some (s.loc t)) + amt := by
    simp only [net, hl]
    ring
  obtain ⟨hexact, hbegun⟩ := h.sums amt hsame hold hold' hnet (by simp [hl, landed, waiting])
  exact {
    threshold_eq := h.threshold_eq
    glock := h.glock.stay (by simp [hl, inGlobal])
    llock := by
      intro i
      by_cases hi : i = cpu
      · subst hi
        simpa [CounterT.setLlock] using (h.llock i).leave hin (l := ⟨none, todo⟩) id
      · rw [St.move_sh, hlock i hi]
        exact (h.llock i).stay ⟨fun hi' => hi'.elim, fun hi' => absurd (inLocal_inj hi' hin) hi⟩
    at_ := h.at_move rfl trivial (.inl rfl) fun i => .inl rfl
    todo := todo_move h.todo (by rw [hl]; exact List.Subset.refl _)
    free := by
      intro i hi
      by_cases hic : i = cpu
      · subst hic
        rw [← h.threshold_eq]
        exact hat.2
      · rw [St.move_sh, hlock i hic] at hi
        exact h.free i hi
    exact := hexact
    begun := hbegun }

theorem Inv.update (h : Inv threshold C S s) (hT : 1 ≤ threshold) {cpu : Fin NUMCPUS} {amt : ℤ} {p : UpdatePc}
    {todo : List Op} (hl : s.loc t = ⟨some (.update cpu amt p), todo⟩) {r : Option UpdatePc}
    (hs : update t s.sh cpu amt p = some (m, r)) :
    Inv threshold (C + returnedSum (updateShows t amt p)) S (s.move t m ⟨r.map (.update cpu amt), todo⟩) := by
  have hg := h.glock
  have hat := h.at_ t
  have hin : p ≠ .lockLocal → inLocal cpu (s.loc t) := fun hp => by rw [hl]; exact ⟨rfl, hp⟩
  have hsub : todo ⊆ (s.loc t).todo := by rw [hl]; exact List.Subset.refl _
  have hret : p ≠ .unlockLocal → C + returnedSum (updateShows t amt p) = C := fun hp => by
    rw [returnedSum_updateShows, if_neg hp, add_zero]
  rw [hl] at hat
  obtain ⟨h0, hat⟩ := hat
  rcases p with _ | _ | v | _ | _ | _ | g | v | _ | _ | _
  case lockLocal =>
    obtain ⟨hm, hz⟩ := lock_step hs
    cases hz
    simpa using h.lockLocal hl hm
  case loadLocal =>
    cases hs
    rw [hret (by simp)]
    exact h.inside (hin (by simp)) ⟨rfl, by simp⟩ rfl rfl (fun _ _ => rfl) (hg.stay (by simp [inGlobal, hl]))
      ⟨h0, rfl, hat⟩ (.inl rfl) hsub (by simp [net, hl]) (by simp [landed, waiting, hl])
  case storeLocal =>
    cases hs
    obtain ⟨rfl, h1, h2⟩ := hat
    rw [hret (by simp)]
    refine h.inside (hin (by simp)) ⟨rfl, by simp⟩ rfl rfl (fun i hi => Function.update_of_ne hi _ _)
      (hg.stay (by simp [inGlobal, hl])) ⟨h0, ?_⟩ (.inl rfl) hsub ?_ (by simp [landed, waiting, hl])
    · simp only [AtUpdate, CounterT.setLocal, Function.update_self]
      omega
    · simp [net, hl, CounterT.setLocal]
  case test =>
    simp only [ApproximateCounter.update] at hs
    rw [hret (by simp)]
    split_ifs at hs with hc
    · cases hs
      exact h.inside (hin (by simp)) ⟨rfl, by simp⟩ rfl rfl (fun _ _ => rfl) (hg.stay (by simp [inGlobal, hl]))
        ⟨h0, hat⟩ (.inl rfl) hsub (by simp [net, hl]) (by simp [landed, waiting, hl])
    · cases hs
      have hat' : 0 ≤ s.sh.locals cpu ∧ s.sh.locals cpu < s.sh.threshold := ⟨h0.trans hat.1, not_le.1 hc⟩
      exact h.inside (hin (by simp)) ⟨rfl, by simp⟩ rfl rfl (fun _ _ => rfl) (hg.stay (by simp [inGlobal, hl]))
        ⟨h0, hat'⟩ (.inl rfl) hsub (by simp [net, hl]) (by simp [landed, waiting, hl])
  case lockGlobal =>
    obtain ⟨hm, hz⟩ := lock_step hs
    cases hz
    rw [hm] at hg
    rw [hret (by simp)]
    exact h.inside (hin (by simp)) ⟨rfl, by simp⟩ rfl rfl (fun _ _ => rfl) (hg.enter (by simp [inGlobal]))
      ⟨h0, hat⟩ (.inl rfl) hsub (by simp [net, hl]) (by simp [landed, waiting, hl])
  case loadGlobal =>
    cases hs
    rw [hret (by simp)]
    exact h.inside (hin (by simp)) ⟨rfl, by simp⟩ rfl rfl (fun _ _ => rfl) (hg.stay (by simp [inGlobal, hl]))
      ⟨h0, rfl, hat⟩ (.inl rfl) hsub (by simp [net, hl]) (by simp [landed, waiting, hl])
  case loadAmount =>
    cases hs
    obtain ⟨rfl, hat⟩ := hat
    rw [hret (by simp)]
    exact h.inside (hin (by simp)) ⟨rfl, by simp⟩ rfl rfl (fun _ _ => rfl) (hg.stay (by simp [inGlobal, hl]))
      ⟨h0, rfl, hat⟩ (.inl rfl) hsub (by simp [net, hl]) (by simp [landed, waiting, hl])
  case storeGlobal =>
    cases hs
    obtain ⟨rfl, hat⟩ := hat
    rw [hret (by simp)]
    refine h.inside (hin (by simp)) ⟨rfl, by simp⟩ rfl rfl (fun _ _ => rfl) (hg.stay (by simp [inGlobal, hl]))
      ⟨h0, trivial⟩ (.inr (by simp [inGlobal, hl])) hsub ?_ (by simp [landed, waiting, hl])
    simp [net, hl]
    ring
  case unlockGlobal =>
    cases hs
    rw [hret (by simp)]
    exact h.inside (hin (by simp)) ⟨rfl, by simp⟩ rfl rfl (fun _ _ => rfl)
      (hg.leave (by simp [inGlobal, hl]) (by simp [inGlobal])) ⟨h0, trivial⟩ (.inl rfl) hsub (by simp [net, hl])
      (by simp [landed, waiting, hl])
  case resetLocal =>
    cases hs
    rw [hret (by simp)]
    refine h.inside (hin (by simp)) ⟨rfl, by simp⟩ rfl rfl (fun i hi => Function.update_of_ne hi _ _)
      (hg.stay (by simp [inGlobal, hl])) ⟨h0, ?_⟩ (.inl rfl) hsub ?_ (by simp [landed, waiting, hl])
    · have := h.threshold_eq
      simp only [AtUpdate, CounterT.setLocal, Function.update_self]
      omega
    · simp [net, hl, CounterT.setLocal]
  case unlockLocal =>
    cases hs
    simpa using h.unlockLocal hl

theorem Inv.get (h : Inv threshold C S s) {p : GetPc} {todo : List Op} (hl : s.loc t = ⟨some (.get p), todo⟩)
    {r : Option GetPc} (hs : get t s.sh p = some (m, r)) :
    Inv threshold C S (s.move t m ⟨r.map .get, todo⟩) := by
  have hg := h.glock
  have hout : ∀ i, ¬ inLocal i (s.loc t) := fun i => by simp [hl, inLocal]
  have hsub : todo ⊆ (s.loc t).todo := by rw [hl]; exact List.Subset.refl _
  rw [← add_zero S]
  rcases p with _ | _ | val
  case lock =>
    obtain ⟨hm, hz⟩ := lock_step hs
    cases hz
    rw [hm] at hg
    exact h.outside (l := ⟨some (.get .load), todo⟩) hout (fun i => by simp [inLocal]) rfl (hg.enter (by simp [inGlobal]))
      trivial hsub 0 (by simp [waiting, hl])
  case load =>
    cases hs
    exact h.outside (l := ⟨some (.get (.unlock s.sh.global)), todo⟩) hout (fun i => by simp [inLocal]) rfl
      (hg.stay (by simp [inGlobal, hl])) rfl hsub 0 (by simp [waiting, hl])
  case unlock =>
    cases hs
    exact h.outside (l := ⟨none, todo⟩) hout (fun i => by simp [inLocal]) rfl
      (hg.leave (by simp [inGlobal, hl]) (by simp [inGlobal])) trivial hsub 0 (by simp [waiting, hl])

omit [DecidableEq T] [Fintype T] in
/-- a step of a thread: it begins an update or a `get`, or is in one of them -/
theorem prog_step (hs : prog t () s.sh (s.loc t) = some (m, l, es)) :
    (∃ threadID amt cpu todo, s.loc t = ⟨none, .update threadID amt :: todo⟩ ∧ m = s.sh ∧
      l = ⟨some (.update cpu amt .lockLocal), todo⟩ ∧ es = [.begun t threadID amt]) ∨
    (∃ todo, s.loc t = ⟨none, .get :: todo⟩ ∧ m = s.sh ∧ l = ⟨some (.get .lock), todo⟩ ∧ es = []) ∨
    (∃ cpu amt p r todo, s.loc t = ⟨some (.update cpu amt p), todo⟩ ∧ update t s.sh cpu amt p = some (m, r) ∧
      l = ⟨r.map (.update cpu amt), todo⟩ ∧ es = updateShows t amt p) ∨
    ∃ p r todo, s.loc t = ⟨some (.get p), todo⟩ ∧ get t s.sh p = some (m, r) ∧ l = ⟨r.map .get, todo⟩ ∧
      es = getShows t p := by
  generalize s.loc t = l₀ at hs
  obtain ⟨r, todo⟩ := l₀
  rcases r with _ | ⟨cpu, amt, p⟩ | p
  · rcases todo with _ | ⟨_ | _, todo⟩
    · cases hs
    · obtain ⟨cpu, -, he⟩ := Option.map_eq_some_iff.1 hs
      cases he
      exact .inl ⟨_, _, cpu, todo, rfl, rfl, rfl, rfl⟩
    · cases hs
      exact .inr (.inl ⟨todo, rfl, rfl, rfl, rfl⟩)
  · obtain ⟨⟨m', r⟩, hu, he⟩ := Option.map_eq_some_iff.1 hs
    cases he
    exact .inr (.inr (.inl ⟨cpu, amt, p, r, todo, rfl, hu, rfl, rfl⟩))
  · obtain ⟨⟨m', r⟩, hu, he⟩ := Option.map_eq_some_iff.1 hs
    cases he
    exact .inr (.inr (.inr ⟨p, r, todo, rfl, hu, rfl, rfl⟩))

theorem inv_step (h : Inv threshold C S s) (hT : 1 ≤ threshold) (hs : prog t () s.sh (s.loc t) = some (m, l, es)) :
    Inv threshold (C + returnedSum es) (S + begunSum es) (s.move t m l) := by
  rcases prog_step hs with ⟨threadID, amt, cpu, todo, hl, rfl, rfl, rfl⟩ | ⟨todo, hl, rfl, rfl, rfl⟩ |
    ⟨cpu, amt, p, r, todo, hl, hu, rfl, rfl⟩ | ⟨p, r, todo, hl, hu, rfl, rfl⟩
  · have h0 : 0 ≤ amt := h.todo t threadID amt (by rw [hl]; exact List.mem_cons_self)
    have hout : ∀ i, ¬ inLocal i (s.loc t) := fun i => by simp [hl, inLocal]
    simp only [returnedSum, begunSum, List.map_nil, List.map_cons, List.sum_nil, List.sum_cons, Event.begunAmt,
      Event.returnedAmt, add_zero]
    exact h.outside (l := ⟨some (.update cpu amt .lockLocal), todo⟩) hout (fun i => by simp [inLocal]) rfl
      (h.glock.stay (by simp [inGlobal, hl])) ⟨h0, trivial⟩ (by rw [hl]; exact List.subset_cons_self _ _) amt
      (by simp [waiting, hl])
  · have hout : ∀ i, ¬ inLocal i (s.loc t) := fun i => by simp [hl, inLocal]
    simp only [returnedSum, begunSum, List.map_nil, List.sum_nil, add_zero]
    rw [← add_zero S]
    exact h.outside (l := ⟨some (.get .lock), todo⟩) hout (fun i => by simp [inLocal]) rfl
      (h.glock.stay (by simp [inGlobal, hl])) trivial (by rw [hl]; exact List.subset_cons_self _ _) 0
      (by simp [waiting, hl])
  · have hb : begunSum (updateShows t amt p) = 0 := by rcases p <;> rfl
    rw [hb, add_zero]
    exact h.update hT hl hu
  · have hb : begunSum (getShows t p) = 0 := by rcases p <;> rfl
    have hr : returnedSum (getShows t p) = 0 := by rcases p <;> rfl
    rw [hb, hr, add_zero, add_zero]
    exact h.get hl hu

/-! ## Results -/

omit [DecidableEq T] in
/-- what a slot stands for: at most what is below the threshold, and no less than what has yet to return -/
theorem Inv.slot (h : Inv threshold C S s) (hT : 1 ≤ threshold) (i : Fin NUMCPUS) :
    - landed (holder s i) ≤ net (s.sh.locals i) (holder s i) ∧ net (s.sh.locals i) (holder s i) ≤ threshold - 1 := by
  have ht := h.threshold_eq
  cases hi : s.sh.llock i with
  | none =>
    have := h.free i hi
    simp only [holder_none hi, landed, net]
    omega
  | some t =>
    have hin := (h.llock i t).1 hi
    have hat := h.at_ t
    rw [holder_some hi]
    generalize s.loc t = l at hin hat
    obtain ⟨r, todo⟩ := l
    rcases r with _ | ⟨cpu, amt, p⟩ | p
    · exact hin.elim
    · obtain ⟨rfl, hp⟩ := hin
      obtain ⟨h0, hat⟩ := hat
      rcases p with _ | _ | _ | _ | _ | _ | _ | _ | _ | _ | _ <;> simp only [AtUpdate] at hat <;>
        simp only [landed, net] <;> first | exact absurd rfl hp | omega
    · exact hin.elim

omit [DecidableEq T] [Fintype T] in
theorem At.waiting_nonneg (h : At m l) : 0 ≤ waiting l := by
  obtain ⟨r, todo⟩ := l
  rcases r with _ | ⟨cpu, amt, p⟩ | p
  · exact le_rfl
  · rcases p <;> first | exact h.1 | exact le_rfl
  · exact le_rfl

omit [DecidableEq T] in
/-- the global count at any moment -/
theorem Inv.bounds (h : Inv threshold C S s) (hT : 1 ≤ threshold) :
    C - NUMCPUS * (threshold - 1) ≤ s.sh.global ∧ s.sh.global ≤ S := by
  have hx := h.exact
  have hb := h.begun
  constructor
  · have hle := Finset.sum_le_card_nsmul Finset.univ (fun i => net (s.sh.locals i) (holder s i)) (threshold - 1)
      fun i _ => (h.slot hT i).2
    simp only [Finset.card_univ, Fintype.card_fin, nsmul_eq_mul] at hle
    omega
  · have hle : ∑ i, - landed (holder s i) ≤ ∑ i, net (s.sh.locals i) (holder s i) :=
      Finset.sum_le_sum fun i _ => (h.slot hT i).1
    have hw : 0 ≤ ∑ t, waiting (s.loc t) := Finset.sum_nonneg fun t _ => (h.at_ t).waiting_nonneg
    rw [Finset.sum_neg_distrib] at hle
    omega

/-- a thread in `update` -/
def Updating (l : Loc) : Prop := ∃ cpu amt p, l.running = some (.update cpu amt p)

omit [DecidableEq T] in
/-- the counts while no update is running -/
theorem Inv.quiescent (h : Inv threshold C S s) (hq : ∀ t, ¬ Updating (s.loc t)) :
    s.sh.global + ∑ i, s.sh.locals i = S ∧ C = S ∧ ∀ i, 0 ≤ s.sh.locals i ∧ s.sh.locals i < threshold := by
  have hfree : ∀ i, s.sh.llock i = none := by
    intro i
    cases hi : s.sh.llock i with
    | none => rfl
    | some t =>
      have hin := (h.llock i t).1 hi
      unfold inLocal at hin
      split at hin
      · rename_i cpu amt p hr
        exact absurd ⟨cpu, amt, p, hr⟩ (hq t)
      · exact hin.elim
  have hold : ∀ i, holder s i = none := fun i => holder_none (hfree i)
  have hw : ∀ t, waiting (s.loc t) = 0 := by
    intro t
    unfold waiting
    split
    · rename_i cpu amt p hr
      exact absurd ⟨cpu, amt, p, hr⟩ (hq t)
    · rfl
  have hx := h.exact
  have hb := h.begun
  simp only [hold, net, landed, hw, Finset.sum_const_zero, add_zero] at hx hb
  exact ⟨hx.trans hb, hb, fun i => h.free i (hfree i)⟩

omit [DecidableEq T] in
/-- the global count is only changed with `glock`, and never decreases -/
theorem Inv.global_step (h : Inv threshold C S s) (hs : prog t () s.sh (s.loc t) = some (m, l, es)) :
    m.global = s.sh.global ∨ inGlobal (s.loc t) ∧ s.sh.global ≤ m.global := by
  have hat := h.at_ t
  rcases prog_step hs with ⟨threadID, amt, cpu, todo, hl, rfl, -, -⟩ | ⟨todo, hl, rfl, -, -⟩ |
    ⟨cpu, amt, p, r, todo, hl, hu, -, -⟩ | ⟨p, r, todo, hl, hu, -, -⟩
  · exact .inl rfl
  · exact .inl rfl
  · rw [hl] at hat ⊢
    rcases p with _ | _ | _ | _ | _ | _ | _ | v | _ | _ | _
    case lockLocal | lockGlobal =>
      obtain ⟨-, hz⟩ := lock_step hu
      cases hz
      exact .inl rfl
    case test =>
      simp only [ApproximateCounter.update] at hu
      split_ifs at hu <;> cases hu <;> exact .inl rfl
    case storeGlobal =>
      cases hu
      obtain ⟨h0, rfl, hle, -⟩ := hat
      exact .inr ⟨trivial, le_add_of_nonneg_right (h0.trans hle)⟩
    all_goals
      cases hu
      exact .inl rfl
  · rcases p with _ | _ | _
    case lock =>
      obtain ⟨-, hz⟩ := lock_step hu
      cases hz
      exact .inl rfl
    all_goals
      cases hu
      exact .inl rfl

/-- a thread in `get` with `glock` -/
def Reading (l : Loc) : Prop := ∃ p, l.running = some (.get p) ∧ p ≠ .lock

/-- `val` lies within the bounds that held when thread `t` locked `glock` last -/
def Bounded (threshold : ℤ) (t : T) (val : ℤ) (tr : List (Event T)) : Prop :=
  ∃ before since, tr = before ++ .locked t :: since ∧ .locked t ∉ since ∧
    returnedSum before - NUMCPUS * (threshold - 1) ≤ val ∧ val ≤ begunSum before

omit [DecidableEq T] [Fintype T] in
theorem Bounded.append {val : ℤ} {tr : List (Event T)} (h : Bounded threshold t val tr) (he : .locked t ∉ es) :
    Bounded threshold t val (tr ++ es) := by
  obtain ⟨before, since, rfl, hn, hb⟩ := h
  exact ⟨before, since ++ es, by simp, by simp [hn, he], hb⟩

/-- what holds of the events so far and the state -/
structure Gets (threshold : ℤ) (tr : List (Event T)) (s : St T (CounterT T) Loc) : Prop where
  inv : Inv threshold (returnedSum tr) (begunSum tr) s
  reading : ∀ t, Reading (s.loc t) → Bounded threshold t s.sh.global tr
  got : ∀ pre post t val, tr = pre ++ .got t val :: post → Bounded threshold t val pre
  sorted : (gots tr).Pairwise (· ≤ ·)
  le : ∀ val ∈ gots tr, val ≤ s.sh.global

omit [DecidableEq T] [Fintype T] in
/-- the events of a `get`: it has locked `glock`, or returns the value it has loaded -/
theorem get_events (hs : prog t () s.sh (s.loc t) = some (m, l, es)) {e : Event T} (he : e ∈ es) :
    (∃ threadID amt, e = .begun t threadID amt) ∨ (∃ amt, e = .returned t amt) ∨
    (e = .locked t ∧ s.sh.glock = none ∧ m.global = s.sh.global ∧ es = [e]) ∨
    ∃ val, e = .got t val ∧ (s.loc t).running = some (.get (.unlock val)) ∧ es = [e] := by
  rcases prog_step hs with ⟨threadID, amt, cpu, todo, hl, rfl, -, rfl⟩ | ⟨todo, hl, rfl, -, rfl⟩ |
    ⟨cpu, amt, p, r, todo, hl, hu, -, rfl⟩ | ⟨p, r, todo, hl, hu, -, rfl⟩
  · exact .inl ⟨threadID, amt, List.mem_singleton.1 he⟩
  · cases he
  · rcases p with _ | _ | _ | _ | _ | _ | _ | _ | _ | _ | _
    case unlockLocal => exact .inr (.inl ⟨amt, List.mem_singleton.1 he⟩)
    all_goals cases he
  · rcases p with _ | _ | val
    case lock =>
      obtain ⟨hm, hz⟩ := lock_step hu
      cases hz
      cases List.mem_singleton.1 he
      exact .inr (.inr (.inl ⟨rfl, hm, rfl, rfl⟩))
    case load => cases he
    case unlock =>
      cases List.mem_singleton.1 he
      exact .inr (.inr (.inr ⟨val, rfl, by rw [hl], rfl⟩))

theorem Reading.inGlobal (h : Reading l) : inGlobal l := by
  obtain ⟨p, hp, hne⟩ := h
  unfold ApproximateCounter.inGlobal
  rw [hp]
  exact hne

omit [DecidableEq T] in
/-- a step returns no value, or the global count -/
theorem Gets.gots_step {tr : List (Event T)} (h : Gets threshold tr s)
    (hs : prog t () s.sh (s.loc t) = some (m, l, es)) : gots es = [] ∨ gots es = [s.sh.global] := by
  have hat := h.inv.at_ t
  by_cases he : ∃ u val, Event.got u val ∈ es
  · obtain ⟨u, val, he⟩ := he
    rcases get_events hs he with ⟨_, _, h1⟩ | ⟨_, h1⟩ | ⟨h1, -⟩ | ⟨val', h1, hr, rfl⟩
    · cases h1
    · cases h1
    · cases h1
    · cases h1
      unfold At at hat
      rw [hr] at hat
      exact .inr (by simpa [gots, Event.gotVal] using hat)
  · left
    refine List.filterMap_eq_nil_iff.2 fun e hmem => ?_
    rcases e with _ | _ | _ | ⟨u, val⟩
    case got => exact absurd ⟨u, val, hmem⟩ he
    all_goals rfl

theorem Gets.reading_step {tr : List (Event T)} (h : Gets threshold tr s) (hT : 1 ≤ threshold)
    (hs : prog t () s.sh (s.loc t) = some (m, l, es)) {u : T} (hu : Reading (Function.update s.loc t l u)) :
    Bounded threshold u m.global (tr ++ es) := by
  have hg := h.inv.global_step hs
  by_cases hut : u = t
  · subst hut
    rw [Function.update_self] at hu
    obtain ⟨p', hp', hne⟩ := hu
    rcases prog_step hs with ⟨_, _, _, _, -, -, rfl, -⟩ | ⟨_, -, -, rfl, -⟩ | ⟨_, _, _, r, _, -, -, rfl, -⟩ |
      ⟨p, r, todo, hl, hw, rfl, rfl⟩
    · cases hp'
    · cases hp'
      exact absurd rfl hne
    · rcases r with _ | _ <;> cases hp'
    · rcases p with _ | _ | val
      case lock =>
        obtain ⟨-, hz⟩ := lock_step hw
        cases hz
        exact ⟨tr, [], rfl, by simp, h.inv.bounds hT⟩
      case load =>
        cases hw
        exact (h.reading u ⟨.load, by rw [hl], by simp⟩).append (by simp [getShows])
      case unlock =>
        cases hw
        cases hp'
  · rw [Function.update_of_ne hut] at hu
    have heq : m.global = s.sh.global :=
      hg.resolve_right fun hin => hut (h.inv.glock.unique hu.inGlobal hin.1)
    rw [heq]
    refine (h.reading u hu).append fun hmem => ?_
    rcases get_events hs hmem with ⟨_, _, h1⟩ | ⟨_, h1⟩ | ⟨h1, -⟩ | ⟨_, h1, -⟩ <;> cases h1
    exact hut rfl

theorem Gets.step {tr : List (Event T)} (h : Gets threshold tr s) (hT : 1 ≤ threshold)
    (hs : prog t () s.sh (s.loc t) = some (m, l, es)) : Gets threshold (tr ++ es) (s.move t m l) where
  inv := by
    rw [returnedSum_append, begunSum_append]
    exact inv_step h.inv hT hs
  reading u hu := h.reading_step hT hs hu
  got := by
    intro pre post u val he
    rcases split_append he with ⟨post', ht⟩ | ⟨pre', rfl, hes⟩
    · exact h.got pre post' u val ht
    · have hmem : Event.got u val ∈ es := by simp [hes]
      rcases get_events hs hmem with ⟨_, _, h1⟩ | ⟨_, h1⟩ | ⟨h1, -⟩ | ⟨_, h1, hr, h2⟩
      · cases h1
      · cases h1
      · cases h1
      · cases h1
        have hat := h.inv.at_ t
        unfold At at hat
        rw [hr] at hat
        obtain ⟨rfl, -⟩ : pre' = [] ∧ post = [] := by
          rw [h2] at hes
          rcases pre' with _ | ⟨e, pre'⟩ <;> simp_all
        rw [List.append_nil, hat]
        exact h.reading t ⟨_, hr, by simp⟩
  sorted := by
    have hes := h.gots_step hs
    rw [gots, List.filterMap_append, ← gots, ← gots, List.pairwise_append]
    refine ⟨h.sorted, ?_, ?_⟩
    · rcases hes with hes | hes <;> simp [hes]
    · intro v hv w hw
      rcases hes with hes | hes
      · simp [hes] at hw
      · rw [hes, List.mem_singleton] at hw
        exact hw ▸ h.le v hv
  le := by
    have hes := h.gots_step hs
    have hmono : s.sh.global ≤ m.global := (h.inv.global_step hs).elim (fun hg => hg.ge) fun hg => hg.2
    intro v hv
    rw [gots, List.filterMap_append, ← gots, ← gots, List.mem_append] at hv
    rcases hv with hv | hv
    · exact (h.le v hv).trans hmono
    · rcases hes with hes | hes
      · simp [hes] at hv
      · rw [hes, List.mem_singleton] at hv
        exact hv ▸ hmono

theorem run_gets (hT : 1 ≤ threshold) {todo : T → List Op} (hamt : ∀ t, Nonneg (todo t)) {as : List (T × Unit)}
    {tr : List (Event T)} (h : Run prog (ApproximateCounter.start threshold todo) as tr s) : Gets threshold tr s := by
  refine h.inv_trace (I := Gets threshold) ?_ fun tr s t _ m l es hg hs => hg.step hT hs
  exact {
    inv := Inv.start hT hamt
    reading := by
      rintro t ⟨p, hp, -⟩
      cases hp
    got := by
      intro pre post t val he
      simp at he
    sorted := List.Pairwise.nil
    le := by simp [gots] }

/-- **Accuracy.** In every run of updates with amounts that are not negative, and of `get`s, with a threshold of at least
1: a `get` returns at least the amounts of the updates that had returned when it locked `glock`, less
`NUMCPUS * (threshold - 1)`, and at most the amounts of the updates begun by then. The values that the `get`s return never
decrease. While no update is running, the counts add up to the exact total and every local count is below the threshold. -/
theorem approximate_counter (threshold : ℤ) (hT : 1 ≤ threshold) (todo : T → List Op)
    (hamt : ∀ t threadID amt, .update threadID amt ∈ todo t → 0 ≤ amt) {as : List (T × Unit)} {tr : List (Event T)}
    {s : St T (CounterT T) Loc} (h : Run prog (start threshold todo) as tr s) :
    (∀ pre post t g, tr = pre ++ .got t g :: post → ∃ before since, pre = before ++ .locked t :: since ∧
      .locked t ∉ since ∧ returnedSum before - NUMCPUS * (threshold - 1) ≤ g ∧ g ≤ begunSum before) ∧
    (gots tr).Pairwise (· ≤ ·) ∧
    ((∀ t, ¬ Updating (s.loc t)) → s.sh.global + ∑ i, s.sh.locals i = begunSum tr ∧ returnedSum tr = begunSum tr ∧
      ∀ i, s.sh.locals i < threshold) := by
  have hg := run_gets hT hamt h
  refine ⟨hg.got, hg.sorted, ?_⟩
  intro hq
  obtain ⟨h1, h2, h3⟩ := hg.inv.quiescent hq
  exact ⟨h1, h2, fun i => (h3 i).2⟩

/-- three updates of one slot: a `get` runs between the transfer of the second and the reset of the local count, and the
third stays below the threshold -/
def transferred : List (Fin 2 × Unit) :=
  (List.replicate 16 (0 : Fin 2) ++ List.replicate 4 1 ++ List.replicate 8 0).map fun t => (t, ())

theorem approximate_counter_two : ∃ s : St (Fin 2) (CounterT (Fin 2)) Loc, ∃ tr,
    Run prog (start 4 fun t => if t = 0 then [.update 8 3, .update 16 2, .update 0 1] else [.get]) transferred tr s ∧
    (s.sh.global = 5 ∧ gots tr = [5]) ∧ (gots tr).Pairwise (· ≤ ·) ∧
    s.sh.global + ∑ i, s.sh.locals i = begunSum tr := by
  obtain ⟨s, tr, h, hs, hq⟩ := exec_any_run prog
    (start 4 fun t : Fin 2 => if t = 0 then [.update 8 3, .update 16 2, .update 0 1] else [.get]) transferred
    (fun s tr => (s.sh.global = 5 ∧ gots tr = [5]) ∧ ∀ t, (s.loc t).running = none) (by decide)
  have hamt : ∀ t : Fin 2, ∀ threadID amt,
      Op.update threadID amt ∈ (if t = 0 then [.update 8 3, .update 16 2, .update 0 1] else [Op.get]) → 0 ≤ amt := by
    intro t threadID amt hm
    split_ifs at hm
    · simp only [List.mem_cons, Op.update.injEq, List.not_mem_nil, or_false] at hm
      omega
    · simp at hm
  obtain ⟨-, h2, h3⟩ := approximate_counter 4 (by decide) _ hamt h
  refine ⟨s, tr, h, hs, h2, (h3 fun t => ?_).1⟩
  rintro ⟨cpu, amt, p, hr⟩
  rw [hq t] at hr
  cases hr

end OsPractice.ApproximateCounter
