/-
The two threads with signal masks of their own (`independant_thrd_sigmask.c`): each blocks one signal, tells `main`,
waits until `main` has sent it, and prints what is then pending for it.

`thrdFunc1` and `thrdFunc2` are one function of the number of the thread, 0 or 1: the thread's mutex, its two condition
variables and two flags, and its signal. A pending signal of a thread is one that was sent to it with `pthread_kill`
while it had blocked it; sent to a thread that does not block it, SIGUSR1 or SIGUSR2 kills the process.

What a thread and `main` do about one another is a protocol of its own for each thread (`PairInv`): `main` is for it at
one of a few points (`view`), and the other thread does not matter.

Results:
- `sigmask_prints`: no thread is ever killed, and each prints the signal sent to it and no other;
- `sigmask_total`: every run with finitely many wake-ups without a signal is finite, and stops only with the exit.
-/
import OsPractice.Core.Interleave
import OsPractice.Core.Latch

namespace OsPractice.IndependantThrdSigmask

open Interleave Latch

/-! ## Model -/

inductive Sig where
  | SIGUSR1
  | SIGUSR2
  deriving DecidableEq, Repr

/-- the threads: `none` is `main` -/
abbrev Thread := Option (Fin 2)

/-- the signal that a thread blocks, and that `main` sends to it -/
def sigOf : Fin 2 → Sig
  | 0 => .SIGUSR1
  | 1 => .SIGUSR2

/-- the variables of the file for one thread, and what the kernel has about it -/
structure Half where
  mtx : Monitor.Mutex Thread
  blockCond : Monitor.Cond Thread
  sigCond : Monitor.Cond Thread
  sigBlockCompleted : Bool
  sigSent : Bool
  mask : Finset Sig
  pending : Finset Sig
  created : Bool
  exited : Bool
  deriving DecidableEq

structure Shared where
  half : Fin 2 → Half
  killed : Bool

inductive ThrdPc where
  | sigmask
  | announce (p : AnnouncePc)
  | await (p : AwaitPc)
  | sigpending
  | print (pendingMask : Finset Sig)
  | exit
  | exited
  deriving DecidableEq

inductive MainPc where
  | create (i : Fin 2)
  | await (i : Fin 2) (p : AwaitPc)
  | kill (i : Fin 2)
  | announce (i : Fin 2) (p : AnnouncePc)
  | join (i : Fin 2)
  | exit
  | exited
  deriving DecidableEq

inductive Loc where
  | main (p : MainPc)
  | thrd (i : Fin 2) (p : ThrdPc)
  deriving DecidableEq

inductive Event where
  | printed (i : Fin 2) (pendingMask : Finset Sig)
  deriving DecidableEq

def thrdFunc (i : Fin 2) (c : Choice Thread) (h : Half) : ThrdPc → Option (Half × ThrdPc × List Event)
  | .sigmask => some ({ h with mask := {sigOf i} }, .announce .lock, [])
  | .announce p => (announce (some i) c h.mtx h.blockCond h.sigBlockCompleted p).map fun r =>
      ({ h with mtx := r.1, blockCond := r.2.1, sigBlockCompleted := r.2.2.1 },
        r.2.2.2.elim (.await .lock) .announce, [])
  | .await p => (await (some i) c h.mtx h.sigCond h.sigSent p).map fun r =>
      ({ h with mtx := r.1, sigCond := r.2.1 }, r.2.2.elim .sigpending .await, [])
  | .sigpending => some (h, .print h.pending, [])
  | .print pendingMask => some (h, .exit, [.printed i pendingMask])
  | .exit => some ({ h with exited := true }, .exited, [])
  | .exited => none

def thrdFunc1 := thrdFunc 0

def thrdFunc2 := thrdFunc 1

/-- `pthread_kill`: no effect on a thread that has exited -/
def pthreadKill (sig : Sig) (h : Half) : Half × Bool :=
  if h.exited then (h, false)
  else if sig ∈ h.mask then ({ h with pending := insert sig h.pending }, false)
  else (h, true)

/-- what follows in `main` for the thread 0 and for the thread 1 -/
def next (i : Fin 2) (same : Fin 2 → MainPc) (after : MainPc) : MainPc :=
  match i with
  | 0 => same 1
  | 1 => after

/-- a step of `main`: the thread it is about, what becomes of its half, and whether the process dies -/
def main (c : Choice Thread) (half : Fin 2 → Half) : MainPc → Option (Fin 2 × Half × Bool × MainPc)
  | .create i => some (i, { half i with created := true }, false, next i .create (.await 0 .lock))
  | .await i p => (await none c (half i).mtx (half i).blockCond (half i).sigBlockCompleted p).map fun r =>
      (i, { half i with mtx := r.1, blockCond := r.2.1 }, false,
        r.2.2.elim (next i (.await · .lock) (.kill 0)) (.await i))
  | .kill i => some (i, (pthreadKill (sigOf i) (half i)).1, (pthreadKill (sigOf i) (half i)).2,
      next i .kill (.announce 0 .lock))
  | .announce i p => (announce none c (half i).mtx (half i).sigCond (half i).sigSent p).map fun r =>
      (i, { half i with mtx := r.1, sigCond := r.2.1, sigSent := r.2.2.1 }, false,
        r.2.2.2.elim (next i (.announce · .lock) (.join 0)) (.announce i))
  | .join i => if (half i).exited then some (i, half i, false, next i .join .exit) else none
  | .exit => some (0, half 0, false, .exited)
  | .exited => none

def prog : Prog Thread (Choice Thread) Shared Loc Event := fun t c sh l =>
  if sh.killed then none
  else match t, l with
    | none, .main p => (main c sh.half p).map fun r =>
        (⟨Function.update sh.half r.1 r.2.1, r.2.2.1⟩, .main r.2.2.2, [])
    | some i, .thrd j p =>
      if i = j ∧ (sh.half i).created then
        (thrdFunc i c (sh.half i) p).map fun r =>
          (⟨Function.update sh.half i r.1, false⟩, .thrd i r.2.1, r.2.2)
      else none
    | _, _ => none

/-- the process with the signal masks that the threads inherit -/
def start (mask : Fin 2 → Finset Sig) : St Thread Shared Loc :=
  ⟨⟨fun i => ⟨none, ∅, ∅, false, false, mask i, ∅, false, false⟩, false⟩, fun
    | none => .main (.create 0)
    | some i => .thrd i .sigmask⟩

/-! ## The protocol of one thread and `main` -/

/-- where `main` stands for one thread -/
inductive View where
  | create
  | created
  | await (p : AwaitPc)
  | awaited
  | killed
  | announce (p : AnnouncePc)
  | announced
  deriving DecidableEq

def view (i : Fin 2) : MainPc → View
  | .create j => if j ≤ i then .create else .created
  | .await j p => if i < j then .awaited else if i = j then .await p else .created
  | .kill j => if i < j then .killed else .awaited
  | .announce j p => if i < j then .announced else if i = j then .announce p else .killed
  | .join _ => .announced
  | .exit => .announced
  | .exited => .announced

/-- the flags and signals at the points of the thread and of `main` -/
def ThrdPc.completed : ThrdPc → Bool
  | .sigmask => false
  | .announce p => p = .signal || p = .unlock
  | _ => true

def ThrdPc.inside : ThrdPc → Bool
  | .announce p => p.inside
  | .await p => p.inside
  | _ => false

/-- past the loop that waits for the signal -/
def ThrdPc.received : ThrdPc → Bool
  | .await p => p = .unlock
  | .sigpending | .print _ | .exit | .exited => true
  | _ => false

def View.inside : View → Bool
  | .await p => p.inside
  | .announce p => p.inside
  | _ => false

/-- past the loop that waits for the thread -/
def View.sawCompleted : View → Bool
  | .create | .created => false
  | .await p => p = .unlock
  | _ => true

def View.signalled : View → Bool
  | .killed | .announce _ | .announced => true
  | _ => false

def View.sent : View → Bool
  | .announce p => p = .signal || p = .unlock
  | .announced => true
  | _ => false

structure PairInv (i : Fin 2) (v : View) (q : ThrdPc) (h : Half) : Prop where
  created : h.created = decide (v ≠ .create)
  born : v = .create → q = .sigmask
  completed : h.sigBlockCompleted = q.completed
  awaited : v.sawCompleted = true → q.completed = true
  sent : h.sigSent = v.sent
  received : q.received = true → v.sent = true
  mask : q ≠ .sigmask → h.mask = {sigOf i}
  pending : h.pending = if v.signalled then {sigOf i} else ∅
  exited : h.exited = decide (q = .exited)
  print : ∀ set, q = .print set → set = {sigOf i}
  mtx : h.mtx = if v.inside then some none else if q.inside then some (some i) else none
  apart : ¬ (v.inside = true ∧ q.inside = true)
  mainTested : v = .await .condWait → q.completed = false
  tested : q = .await .condWait → v.sent = false
  sleeping : h.blockCond = ∅ ∨
    h.blockCond = {none} ∧ v = .await .asleep ∧ (q.completed = false ∨ q = .announce .signal)
  waiting : h.sigCond = ∅ ∨
    h.sigCond = {some i} ∧ q = .await .asleep ∧ (v.sent = false ∨ v = .announce .signal)

theorem PairInv.start (i : Fin 2) (mask : Finset Sig) :
    PairInv i .create .sigmask ⟨none, ∅, ∅, false, false, mask, ∅, false, false⟩ := by
  constructor <;> simp [ThrdPc.completed, ThrdPc.received, ThrdPc.inside, View.sawCompleted, View.signalled,
    View.sent, View.inside]

section Pair

variable {i : Fin 2} {v : View} {q q' : ThrdPc} {x x' : Half} {c : Choice Thread} {es : List Event}

theorem View.signalled_of_sent {v : View} (h : v.sent = true) : v.signalled = true := by
  cases v <;> first | rfl | cases h

theorem signal_single {w cond : Finset Thread} {t : Thread} {cond₀ : Finset Thread} (h₀ : cond₀ = ∅ ∨ cond₀ = {t})
    (h : Monitor.signal w cond₀ = some cond) : cond = ∅ := by
  obtain ⟨h1, h2⟩ := Monitor.signal_eq_some h
  rcases h₀ with rfl | rfl
  · exact Finset.subset_empty.1 h1
  · have h3 := h2 (Finset.singleton_nonempty t)
    rw [Finset.card_singleton, Nat.lt_one_iff, Finset.card_eq_zero] at h3
    exact h3

/-- the thread says that it has blocked its signal -/
theorem PairInv.thrd_announce {p : AnnouncePc} {m : Monitor.Mutex Thread} {cond : Monitor.Cond Thread} {flag : Bool}
    {r : Option AnnouncePc} (h : PairInv i v (.announce p) x) (hv : x.created = true)
    (hs : Latch.announce (some i) c x.mtx x.blockCond x.sigBlockCompleted p = some (m, cond, flag, r)) :
    PairInv i v (r.elim (.await .lock) .announce) { x with mtx := m, blockCond := cond, sigBlockCompleted := flag } := by
  obtain ⟨created, born, completed, awaited, sent, received, mask, pending, exited, print, mtx, apart, mainTested,
    tested, sleeping, waiting⟩ := h
  cases p with
  | lock =>
    obtain ⟨hm, he⟩ := Monitor.lock_step hs
    cases he
    constructor <;> grind -linarith [ThrdPc.completed, ThrdPc.received, ThrdPc.inside, AnnouncePc.inside, AwaitPc.inside]
  | store =>
    cases hs
    have hout : v ≠ .await .condWait := fun hv => apart ⟨by rw [hv]; rfl, rfl⟩
    constructor <;> grind -linarith [ThrdPc.completed, ThrdPc.received, ThrdPc.inside, AnnouncePc.inside, AwaitPc.inside]
  | signal =>
    obtain ⟨cond', hc, he⟩ := Option.map_eq_some_iff.1 hs
    cases he
    have hcond : cond = ∅ := signal_single (t := none) (sleeping.imp_right And.left) hc
    constructor <;> grind -linarith [ThrdPc.completed, ThrdPc.received, ThrdPc.inside, AnnouncePc.inside, AwaitPc.inside]
  | unlock =>
    cases hs
    constructor <;> grind -linarith [ThrdPc.completed, ThrdPc.received, ThrdPc.inside, AnnouncePc.inside, AwaitPc.inside]

/-- the thread waits until its signal has been sent -/
theorem PairInv.thrd_await {p : AwaitPc} {m : Monitor.Mutex Thread} {cond : Monitor.Cond Thread} {r : Option AwaitPc}
    (h : PairInv i v (.await p) x) (hv : x.created = true)
    (hs : Latch.await (some i) c x.mtx x.sigCond x.sigSent p = some (m, cond, r)) :
    PairInv i v (r.elim .sigpending .await) { x with mtx := m, sigCond := cond } := by
  obtain ⟨created, born, completed, awaited, sent, received, mask, pending, exited, print, mtx, apart, mainTested,
    tested, sleeping, waiting⟩ := h
  cases p with
  | lock =>
    obtain ⟨hm, he⟩ := Monitor.lock_step hs
    cases he
    constructor <;> grind -linarith [ThrdPc.completed, ThrdPc.received, ThrdPc.inside, AnnouncePc.inside, AwaitPc.inside]
  | test =>
    cases hs
    constructor <;> grind -linarith [ThrdPc.completed, ThrdPc.received, ThrdPc.inside, AnnouncePc.inside, AwaitPc.inside]
  | condWait =>
    cases hs
    constructor <;> grind -linarith [ThrdPc.completed, ThrdPc.received, ThrdPc.inside, AnnouncePc.inside, AwaitPc.inside]
  | asleep =>
    simp only [Latch.await] at hs
    split_ifs at hs with hc hsp
    · cases hs
      constructor <;> grind -linarith [ThrdPc.completed, ThrdPc.received, ThrdPc.inside, AnnouncePc.inside, AwaitPc.inside]
    · obtain ⟨hm, he⟩ := Monitor.lock_step hs
      cases he
      constructor <;> grind -linarith [ThrdPc.completed, ThrdPc.received, ThrdPc.inside, AnnouncePc.inside, AwaitPc.inside]
  | unlock =>
    cases hs
    constructor <;> grind -linarith [ThrdPc.completed, ThrdPc.received, ThrdPc.inside, AnnouncePc.inside, AwaitPc.inside]

/-- a step of the thread -/
theorem PairInv.thrd (h : PairInv i v q x) (hv : x.created = true) (hs : thrdFunc i c x q = some (x', q', es)) :
    PairInv i v q' x' ∧ x'.created = x.created ∧ ∀ e ∈ es, e = .printed i {sigOf i} := by
  cases q with
  | announce p =>
    obtain ⟨⟨m, cond, flag, r⟩, hr, he⟩ := Option.map_eq_some_iff.1 hs
    cases he
    exact ⟨h.thrd_announce hv hr, rfl, by simp⟩
  | await p =>
    obtain ⟨⟨m, cond, r⟩, hr, he⟩ := Option.map_eq_some_iff.1 hs
    cases he
    exact ⟨h.thrd_await hv hr, rfl, by simp⟩
  | exited => cases hs
  | sigmask =>
    obtain ⟨created, born, completed, awaited, sent, received, mask, pending, exited, print, mtx, apart, mainTested,
      tested, sleeping, waiting⟩ := h
    cases hs
    refine ⟨?_, rfl, by simp⟩
    constructor <;> grind -linarith [ThrdPc.completed, ThrdPc.received, ThrdPc.inside, AnnouncePc.inside, AwaitPc.inside]
  | sigpending =>
    obtain ⟨created, born, completed, awaited, sent, received, mask, pending, exited, print, mtx, apart, mainTested,
      tested, sleeping, waiting⟩ := h
    cases hs
    refine ⟨?_, rfl, by simp⟩
    have hsent : v.signalled = true := View.signalled_of_sent (received rfl)
    constructor <;> grind -linarith [ThrdPc.completed, ThrdPc.received, ThrdPc.inside, AnnouncePc.inside, AwaitPc.inside]
  | print set =>
    obtain ⟨created, born, completed, awaited, sent, received, mask, pending, exited, print, mtx, apart, mainTested,
      tested, sleeping, waiting⟩ := h
    cases hs
    refine ⟨?_, rfl, by simp_all⟩
    constructor <;> grind -linarith [ThrdPc.completed, ThrdPc.received, ThrdPc.inside, AnnouncePc.inside, AwaitPc.inside]
  | exit =>
    obtain ⟨created, born, completed, awaited, sent, received, mask, pending, exited, print, mtx, apart, mainTested,
      tested, sleeping, waiting⟩ := h
    cases hs
    refine ⟨?_, rfl, by simp⟩
    constructor <;> grind -linarith [ThrdPc.completed, ThrdPc.received, ThrdPc.inside, AnnouncePc.inside, AwaitPc.inside]

/-- `main` creates the thread -/
theorem PairInv.create (h : PairInv i .create q x) : PairInv i .created q { x with created := true } := by
  obtain ⟨created, born, completed, awaited, sent, received, mask, pending, exited, print, mtx, apart, mainTested,
    tested, sleeping, waiting⟩ := h
  constructor <;> grind -linarith [View.sawCompleted, View.signalled, View.sent, View.inside]

/-- `main` waits until the thread has blocked its signal -/
theorem PairInv.await {p : AwaitPc} {m : Monitor.Mutex Thread} {cond : Monitor.Cond Thread} {r : Option AwaitPc}
    (h : PairInv i (.await p) q x)
    (hs : Latch.await none c x.mtx x.blockCond x.sigBlockCompleted p = some (m, cond, r)) :
    PairInv i (r.elim .awaited .await) q { x with mtx := m, blockCond := cond } := by
  obtain ⟨created, born, completed, awaited, sent, received, mask, pending, exited, print, mtx, apart, mainTested,
    tested, sleeping, waiting⟩ := h
  cases p with
  | lock =>
    obtain ⟨hm, he⟩ := Monitor.lock_step hs
    cases he
    constructor <;> grind -linarith [View.sawCompleted, View.signalled, View.sent, View.inside, AwaitPc.inside]
  | test =>
    cases hs
    constructor <;> grind -linarith [View.sawCompleted, View.signalled, View.sent, View.inside, AwaitPc.inside]
  | condWait =>
    cases hs
    constructor <;> grind -linarith [View.sawCompleted, View.signalled, View.sent, View.inside, AwaitPc.inside]
  | asleep =>
    simp only [Latch.await] at hs
    split_ifs at hs with hc hsp
    · cases hs
      constructor <;> grind -linarith [View.sawCompleted, View.signalled, View.sent, View.inside, AwaitPc.inside]
    · obtain ⟨hm, he⟩ := Monitor.lock_step hs
      cases he
      constructor <;> grind -linarith [View.sawCompleted, View.signalled, View.sent, View.inside, AwaitPc.inside]
  | unlock =>
    cases hs
    constructor <;> grind -linarith [View.sawCompleted, View.signalled, View.sent, View.inside, AwaitPc.inside]

/-- `main` sends the signal: the thread has blocked it, and has not exited -/
theorem PairInv.kill (h : PairInv i .awaited q x) :
    (pthreadKill (sigOf i) x).2 = false ∧ PairInv i .killed q (pthreadKill (sigOf i) x).1 := by
  obtain ⟨created, born, completed, awaited, sent, received, mask, pending, exited, print, mtx, apart, mainTested,
    tested, sleeping, waiting⟩ := h
  have hq : q.completed = true := awaited rfl
  have hmask : x.mask = {sigOf i} := mask (by rintro rfl; cases hq)
  have hlive : x.exited = false := by
    rw [exited, decide_eq_false_iff_not]
    rintro rfl
    cases received rfl
  rw [pthreadKill, if_neg (by simp [hlive]), if_pos (by simp [hmask])]
  refine ⟨rfl, ?_⟩
  constructor <;> grind -linarith [View.sawCompleted, View.signalled, View.sent, View.inside]

/-- `main` tells the thread -/
theorem PairInv.announce {p : AnnouncePc} {m : Monitor.Mutex Thread} {cond : Monitor.Cond Thread} {flag : Bool}
    {r : Option AnnouncePc} (h : PairInv i (.announce p) q x)
    (hs : Latch.announce none c x.mtx x.sigCond x.sigSent p = some (m, cond, flag, r)) :
    PairInv i (r.elim .announced .announce) q { x with mtx := m, sigCond := cond, sigSent := flag } := by
  obtain ⟨created, born, completed, awaited, sent, received, mask, pending, exited, print, mtx, apart, mainTested,
    tested, sleeping, waiting⟩ := h
  cases p with
  | lock =>
    obtain ⟨hm, he⟩ := Monitor.lock_step hs
    cases he
    constructor <;> grind -linarith [View.sawCompleted, View.signalled, View.sent, View.inside, AnnouncePc.inside]
  | store =>
    cases hs
    have hout : q ≠ .await .condWait := fun hq => apart ⟨rfl, by rw [hq]; rfl⟩
    constructor <;> grind -linarith [View.sawCompleted, View.signalled, View.sent, View.inside, AnnouncePc.inside]
  | signal =>
    obtain ⟨cond', hc, he⟩ := Option.map_eq_some_iff.1 hs
    cases he
    have hcond : cond = ∅ := signal_single (t := some i) (waiting.imp_right And.left) hc
    constructor <;> grind -linarith [View.sawCompleted, View.signalled, View.sent, View.inside, AnnouncePc.inside]
  | unlock =>
    cases hs
    constructor <;> grind -linarith [View.sawCompleted, View.signalled, View.sent, View.inside, AnnouncePc.inside]

/-- `main` comes to the thread, and does nothing yet -/
def Quiet (v v' : View) : Prop := v' = v ∨ v = .created ∧ v' = .await .lock ∨ v = .killed ∧ v' = .announce .lock

instance (v v' : View) : Decidable (Quiet v v') := by
  unfold Quiet
  infer_instance

theorem PairInv.quiet {v' : View} (h : PairInv i v q x) (hq : Quiet v v') : PairInv i v' q x := by
  rcases hq with rfl | ⟨rfl, rfl⟩ | ⟨rfl, rfl⟩
  · exact h
  · obtain ⟨created, born, completed, awaited, sent, received, mask, pending, exited, print, mtx, apart, mainTested,
      tested, sleeping, waiting⟩ := h
    constructor <;> grind -linarith [View.sawCompleted, View.signalled, View.sent, View.inside, AwaitPc.inside]
  · obtain ⟨created, born, completed, awaited, sent, received, mask, pending, exited, print, mtx, apart, mainTested,
      tested, sleeping, waiting⟩ := h
    constructor <;> grind -linarith [View.sawCompleted, View.signalled, View.sent, View.inside, AnnouncePc.inside]

end Pair

/-! ## Runs -/

theorem view_await (i : Fin 2) (p : AwaitPc) : view i (.await i p) = .await p := by simp [view]

theorem view_announce (i : Fin 2) (p : AnnouncePc) : view i (.announce i p) = .announce p := by simp [view]

/-- what `main` does for one thread does not concern the other one -/
theorem view_await_other {i j : Fin 2} (hj : j ≠ i) (p : AwaitPc) : view j (.await i p) = view j (.await i .lock) := by
  simp [view, hj]

theorem view_announce_other {i j : Fin 2} (hj : j ≠ i) (p : AnnouncePc) :
    view j (.announce i p) = view j (.announce i .lock) := by
  simp [view, hj]

/-! After its last step for one thread `main` goes on to the other one, or to what it does next for the first. -/

theorem create_next : ∀ i : Fin 2, Quiet .created (view i (next i .create (.await 0 .lock))) ∧
    ∀ j, j ≠ i → Quiet (view j (.create i)) (view j (next i .create (.await 0 .lock))) := by decide

theorem await_next : ∀ i : Fin 2, Quiet .awaited (view i (next i (.await · .lock) (.kill 0))) ∧
    ∀ j, j ≠ i → Quiet (view j (.await i .lock)) (view j (next i (.await · .lock) (.kill 0))) := by decide

theorem kill_next : ∀ i : Fin 2, Quiet .killed (view i (next i .kill (.announce 0 .lock))) ∧
    ∀ j, j ≠ i → Quiet (view j (.kill i)) (view j (next i .kill (.announce 0 .lock))) := by decide

theorem announce_next : ∀ i : Fin 2, Quiet .announced (view i (next i (.announce · .lock) (.join 0))) ∧
    ∀ j, j ≠ i → Quiet (view j (.announce i .lock)) (view j (next i (.announce · .lock) (.join 0))) := by decide

theorem join_next : ∀ i j : Fin 2, Quiet (view j (.join i)) (view j (next i .join .exit)) := by decide

section Main

variable {half : Fin 2 → Half} {q : Fin 2 → ThrdPc} {m m' : MainPc} {c : Choice Thread} {i : Fin 2} {x : Half}
  {k : Bool}

/-- the half that a step of `main` is about, then the other one -/
theorem halves_update (h : ∀ j, PairInv j (view j m) (q j) (half j)) {v : View} (hx : PairInv i v (q i) x)
    (hv : Quiet v (view i m')) (hother : ∀ j, j ≠ i → Quiet (view j m) (view j m')) :
    ∀ j, PairInv j (view j m') (q j) (Function.update half i x j) := by
  intro j
  by_cases hj : j = i
  · subst hj
    rw [Function.update_self]
    exact hx.quiet hv
  · rw [Function.update_of_ne hj]
    exact (h j).quiet (hother j hj)

theorem main_inv (h : ∀ j, PairInv j (view j m) (q j) (half j)) (hs : main c half m = some (i, x, k, m')) :
    k = false ∧ ∀ j, PairInv j (view j m') (q j) (Function.update half i x j) := by
  cases m with
  | create i =>
    cases hs
    have hi := h i
    rw [show view i (.create i) = .create by simp [view]] at hi
    exact ⟨rfl, halves_update h hi.create (create_next i).1 (create_next i).2⟩
  | await i p =>
    obtain ⟨⟨mtx, cond, r⟩, hr, he⟩ := Option.map_eq_some_iff.1 hs
    cases he
    have hi := h i
    rw [view_await] at hi
    have hnext := hi.await hr
    refine ⟨rfl, ?_⟩
    cases r with
    | some r =>
      refine halves_update h hnext (.inl (view_await i r)) fun j hj => .inl ?_
      exact (view_await_other hj r).trans (view_await_other hj p).symm
    | none =>
      refine halves_update h hnext (await_next i).1 fun j hj => ?_
      rw [view_await_other hj]
      exact (await_next i).2 j hj
  | kill i =>
    cases hs
    have hi := h i
    rw [show view i (.kill i) = .awaited by simp [view]] at hi
    obtain ⟨h1, h2⟩ := hi.kill
    exact ⟨h1, halves_update h h2 (kill_next i).1 (kill_next i).2⟩
  | announce i p =>
    obtain ⟨⟨mtx, cond, flag, r⟩, hr, he⟩ := Option.map_eq_some_iff.1 hs
    cases he
    have hi := h i
    rw [view_announce] at hi
    have hnext := hi.announce hr
    refine ⟨rfl, ?_⟩
    cases r with
    | some r =>
      refine halves_update h hnext (.inl (view_announce i r)) fun j hj => .inl ?_
      exact (view_announce_other hj r).trans (view_announce_other hj p).symm
    | none =>
      refine halves_update h hnext (announce_next i).1 fun j hj => ?_
      rw [view_announce_other hj]
      exact (announce_next i).2 j hj
  | join i =>
    simp only [main] at hs
    split_ifs at hs
    cases hs
    exact ⟨rfl, halves_update h (h i) (join_next i i) fun j _ => join_next i j⟩
  | exit =>
    cases hs
    exact ⟨rfl, halves_update h (h 0) (.inl rfl) fun j _ => .inl rfl⟩
  | exited => cases hs

end Main

/-- the threads that `main` has joined -/
def joined : MainPc → Fin 2 → Bool
  | .join j, i => i < j
  | .exit, _ => true
  | .exited, _ => true
  | _, _ => false

theorem not_joined : ∀ i j : Fin 2, joined (next i .create (.await 0 .lock)) j = false ∧
    joined (next i (.await · .lock) (.kill 0)) j = false ∧ joined (next i .kill (.announce 0 .lock)) j = false ∧
    joined (next i (.announce · .lock) (.join 0)) j = false := by decide

def Event.by (i : Fin 2) : Event → Bool
  | .printed j _ => j = i

structure Inv (tr : List Event) (s : St Thread Shared Loc) (m : MainPc) (q : Fin 2 → ThrdPc) : Prop where
  main : s.loc none = .main m
  thrd : ∀ i, s.loc (some i) = .thrd i (q i)
  pair : ∀ i, PairInv i (view i m) (q i) (s.sh.half i)
  joined : ∀ i, joined m i = true → q i = .exited
  alive : s.sh.killed = false
  prints : ∀ i, tr.filter (Event.by i) = if q i = .exit ∨ q i = .exited then [.printed i {sigOf i}] else []

theorem inv_start (mask : Fin 2 → Finset Sig) : Inv [] (start mask) (.create 0) fun _ => .sigmask where
  main := rfl
  thrd _ := rfl
  pair i := by
    have hview : view i (.create 0) = .create := by simp [view]
    rw [hview]
    exact PairInv.start i (mask i)
  joined _ h := by cases h
  alive := rfl
  prints _ := rfl

section Runs

variable {tr : List Event} {s : St Thread Shared Loc} {m : MainPc} {q : Fin 2 → ThrdPc} {c : Choice Thread}
  {sh : Shared} {l : Loc} {es : List Event}

/-- a step of `main`, or of a thread that it has created -/
theorem prog_step (h : Inv tr s m q) {t : Thread} (hs : prog t c s.sh (s.loc t) = some (sh, l, es)) :
    (∃ i x k m', t = none ∧ main c s.sh.half m = some (i, x, k, m') ∧ sh = ⟨Function.update s.sh.half i x, k⟩ ∧
      l = .main m' ∧ es = []) ∨
    ∃ i x q', t = some i ∧ (s.sh.half i).created = true ∧ thrdFunc i c (s.sh.half i) (q i) = some (x, q', es) ∧
      sh = ⟨Function.update s.sh.half i x, false⟩ ∧ l = .thrd i q' := by
  simp only [prog, h.alive, Bool.false_eq_true, if_false] at hs
  cases t with
  | none =>
    rw [h.main] at hs
    obtain ⟨⟨i, x, k, m'⟩, hm, he⟩ := Option.map_eq_some_iff.1 hs
    cases he
    exact .inl ⟨i, x, k, m', rfl, hm, rfl, rfl, rfl⟩
  | some i =>
    rw [h.thrd i] at hs
    simp only [true_and] at hs
    split_ifs at hs with hc
    obtain ⟨⟨x, q', es'⟩, ht, he⟩ := Option.map_eq_some_iff.1 hs
    cases he
    exact .inr ⟨i, x, q', rfl, hc, ht, rfl, rfl⟩

theorem main_joined {half : Fin 2 → Half} {i : Fin 2} {x : Half} {k : Bool} {m' : MainPc}
    (h : ∀ j, PairInv j (view j m) (q j) (half j)) (hj : ∀ j, joined m j = true → q j = .exited)
    (hs : main c half m = some (i, x, k, m')) : ∀ j, joined m' j = true → q j = .exited := by
  intro j hj'
  have hnot : ∀ {p}, joined p j = false → joined p j ≠ true := fun h1 h2 => by
    rw [h1] at h2
    cases h2
  cases m with
  | create i =>
    cases hs
    exact absurd hj' (hnot (not_joined i j).1)
  | await i p =>
    obtain ⟨⟨mtx, cond, r⟩, -, he⟩ := Option.map_eq_some_iff.1 hs
    cases he
    cases r with
    | some r => cases hj'
    | none => exact absurd hj' (hnot (not_joined i j).2.1)
  | kill i =>
    cases hs
    exact absurd hj' (hnot (not_joined i j).2.2.1)
  | announce i p =>
    obtain ⟨⟨mtx, cond, flag, r⟩, -, he⟩ := Option.map_eq_some_iff.1 hs
    cases he
    cases r with
    | some r => cases hj'
    | none => exact absurd hj' (hnot (not_joined i j).2.2.2)
  | join i =>
    simp only [main] at hs
    split_ifs at hs with he
    cases hs
    have hex : ∀ i, (half i).exited = true → q i = .exited := fun i hi => by
      rw [(h i).exited] at hi
      exact of_decide_eq_true hi
    have hcase : ∀ i j : Fin 2, joined (next i .join .exit) j = true → joined (.join i) j = true ∨ j = i := by decide
    rcases hcase i j hj' with h1 | rfl
    · exact hj j h1
    · exact hex j he
  | exit =>
    cases hs
    exact hj j rfl
  | exited => cases hs

theorem inv_step (h : Inv tr s m q) {t : Thread} (hs : prog t c s.sh (s.loc t) = some (sh, l, es)) :
    ∃ m' q', Inv (tr ++ es) (s.move t sh l) m' q' := by
  rcases prog_step h hs with ⟨i, x, k, m', rfl, hm, rfl, rfl, rfl⟩ | ⟨i, x, q', rfl, hc, ht, rfl, rfl⟩
  · obtain ⟨hk, hpair⟩ := main_inv h.pair hm
    refine ⟨m', q, by simp, ?_, hpair, main_joined h.pair h.joined hm, hk, by simpa using h.prints⟩
    intro j
    simpa using h.thrd j
  · obtain ⟨hpair, -, hes⟩ := (h.pair i).thrd hc ht
    have hne : q i ≠ .exited := by
      intro hq
      rw [hq] at ht
      cases ht
    refine ⟨m, Function.update q i q', by simpa using h.main, ?_, ?_, ?_, rfl, ?_⟩
    · intro j
      by_cases hj : j = i
      · subst hj
        simp
      · simpa [hj] using h.thrd j
    · intro j
      by_cases hj : j = i
      · subst hj
        simpa using hpair
      · simpa [hj] using h.pair j
    · intro j hj
      have hji : j ≠ i := by
        rintro rfl
        exact hne (h.joined j hj)
      rw [Function.update_of_ne hji]
      exact h.joined j hj
    · intro j
      rw [List.filter_append, h.prints j]
      by_cases hj : j = i
      · subst hj
        rw [Function.update_self]
        -- the thread prints at one of its points
        cases hq : q j with
        | print set =>
          rw [hq] at ht
          cases ht
          rw [(h.pair j).print set hq]
          simp [Event.by]
        | exit =>
          rw [hq] at ht
          cases ht
          simp
        | exited => exact absurd hq hne
        | sigmask =>
          rw [hq] at ht
          cases ht
          simp
        | sigpending =>
          rw [hq] at ht
          cases ht
          simp
        | announce p =>
          rw [hq] at ht
          obtain ⟨⟨mtx, cond, flag, r⟩, -, he⟩ := Option.map_eq_some_iff.1 ht
          cases he
          cases r <;> simp
        | await p =>
          rw [hq] at ht
          obtain ⟨⟨mtx, cond, r⟩, -, he⟩ := Option.map_eq_some_iff.1 ht
          cases he
          cases r <;> simp
      · have hother : es.filter (Event.by j) = [] := by
          rw [List.filter_eq_nil_iff]
          intro e he
          rw [hes e he]
          simpa [Event.by] using Ne.symm hj
        rw [hother, List.append_nil, Function.update_of_ne hj]

theorem run_inv {mask : Fin 2 → Finset Sig} {as : List (Thread × Choice Thread)} (h : Run prog (start mask) as tr s) :
    ∃ m q, Inv tr s m q := by
  refine h.inv_trace (I := fun tr s => ∃ m q, Inv tr s m q) ⟨_, _, inv_start mask⟩ ?_
  rintro tr s t c sh l es ⟨m, q, hi⟩ hs
  exact inv_step hi hs

/-- **What is printed.** In every run, whatever masks the threads inherit: the process is not killed by a signal, each
thread prints only the signal sent to it, and when `main` has exited both threads have printed, once each. -/
theorem sigmask_prints {mask : Fin 2 → Finset Sig} {as : List (Thread × Choice Thread)}
    (h : Run prog (start mask) as tr s) :
    s.sh.killed = false ∧ (∀ i set, .printed i set ∈ tr → set = {sigOf i}) ∧
      (s.loc none = .main .exited → tr.Perm [.printed 0 {.SIGUSR1}, .printed 1 {.SIGUSR2}]) := by
  obtain ⟨m, q, hi⟩ := run_inv h
  refine ⟨hi.alive, ?_, ?_⟩
  · intro i set hmem
    have h1 : .printed i set ∈ tr.filter (Event.by i) := List.mem_filter.2 ⟨hmem, by simp [Event.by]⟩
    rw [hi.prints i] at h1
    split_ifs at h1
    · cases List.mem_singleton.1 h1
      rfl
    · cases h1
  · intro hmain
    obtain rfl : m = .exited := by
      have h1 := hi.main
      rw [hmain] at h1
      cases h1
      rfl
    have hone : ∀ i, tr.filter (Event.by i) = [.printed i {sigOf i}] := fun i => by
      rw [hi.prints i, if_pos (.inr (hi.joined i rfl))]
    have hnot : tr.filter (fun e => !Event.by 0 e) = tr.filter (Event.by 1) := by
      refine List.filter_congr fun e _ => ?_
      cases e with
      | printed j set =>
        have hall : ∀ j : Fin 2, (!decide (j = 0)) = decide (j = 1) := by decide
        exact hall j
    have hperm := List.filter_append_perm (Event.by 0) tr
    rw [hnot, hone 0, hone 1] at hperm
    exact hperm.symm

def times (k : ℕ) (t : Thread) (woken : Finset Thread) : List (Thread × Choice Thread) :=
  List.replicate k (t, ⟨woken, false⟩)

/-- `main` sleeps, wakes up without a signal and sleeps again; the first thread sleeps, the second one need not -/
def schedule : List (Thread × Choice Thread) :=
  times 5 none ∅ ++ [(none, ⟨∅, true⟩)] ++ times 3 none ∅ ++ times 8 (some 0) {none} ++ times 5 (some 1) ∅ ++
    times 10 none ∅ ++ times 2 none {some 0} ++ times 4 none ∅ ++ times 6 (some 0) ∅ ++ times 6 (some 1) ∅ ++
    times 3 none ∅

theorem schedule_run : ∃ s tr, Run prog (start fun _ => ∅) schedule tr s ∧ s.loc none = .main .exited :=
  exec_any_run prog (start fun _ => ∅) schedule (fun s _ => s.loc none = .main .exited) (by decide +kernel)

theorem sigmask_prints_two : ∃ s tr, Run prog (start fun _ => ∅) schedule tr s ∧ s.sh.killed = false ∧
    tr.Perm [.printed 0 {.SIGUSR1}, .printed 1 {.SIGUSR2}] := by
  obtain ⟨s, tr, h, hexit⟩ := schedule_run
  obtain ⟨halive, -, hperm⟩ := sigmask_prints h
  exact ⟨s, tr, h, halive, hperm hexit⟩

end Runs

/-! ## Termination -/

/-- the steps that are left for a thread, without wake-ups that no signal causes -/
def thrdLeft : Fin 2 × ThrdPc × Half → ℕ
  | (_, .sigmask, _) => 14
  | (_, .announce p, _) => 9 + announceLeft p
  | (i, .await p, x) => 3 + awaitLeft (some i ∈ x.sigCond) x.sigSent p
  | (_, .sigpending, _) => 3
  | (_, .print _, _) => 2
  | (_, .exit, _) => 1
  | (_, .exited, _) => 0

def mainLeft (half : Fin 2 → Half) : MainPc → ℕ
  | .create i => if i = 0 then 27 else 26
  | .await i p =>
    (if i = 0 then 19 else 13) + awaitLeft (none ∈ (half i).blockCond) (half i).sigBlockCompleted p
  | .kill i => if i = 0 then 13 else 12
  | .announce i p => (if i = 0 then 7 else 3) + announceLeft p
  | .join i => if i = 0 then 3 else 2
  | .exit => 1
  | .exited => 0

def left (half : Fin 2 → Half) (m : MainPc) (q : Fin 2 → ThrdPc) : ℕ :=
  mainLeft half m + total thrdLeft fun i => (i, q i, half i)

/-- what a wake-up without a signal costs, with the step itself -/
def cost (c : Choice Thread) : ℕ := if c.spurious then 4 else 0

section Left

variable {i : Fin 2} {v : View} {q q' : ThrdPc} {x x' : Half} {c : Choice Thread} {es : List Event}

theorem thrd_left (h : PairInv i v q x) (hs : thrdFunc i c x q = some (x', q', es)) :
    thrdLeft (i, q', x') + 1 ≤ thrdLeft (i, q, x) + cost c ∧
      ∀ p, awaitLeft (none ∈ x'.blockCond) x'.sigBlockCompleted p ≤
        awaitLeft (none ∈ x.blockCond) x.sigBlockCompleted p := by
  cases q with
  | announce p =>
    obtain ⟨⟨m, cond, flag, r⟩, hr, he⟩ := Option.map_eq_some_iff.1 hs
    cases he
    have hless := announceLeft_announce hr
    refine ⟨?_, awaitLeft_mono ?_⟩
    · cases r with
      | none => cases hsent : x.sigSent <;> simp [thrdLeft, awaitLeft] at hless ⊢ <;> omega
      | some r =>
        simp only [Option.elim_some, thrdLeft] at hless ⊢
        omega
    · cases p with
      | lock =>
        obtain ⟨-, he⟩ := Monitor.lock_step hr
        cases he
        exact .inl ⟨rfl, rfl⟩
      | store =>
        cases hr
        exact .inr rfl
      | signal =>
        obtain ⟨cond', -, he⟩ := Option.map_eq_some_iff.1 hr
        cases he
        exact .inr h.completed
      | unlock =>
        cases hr
        exact .inl ⟨rfl, rfl⟩
  | await p =>
    obtain ⟨⟨m, cond, r⟩, hr, he⟩ := Option.map_eq_some_iff.1 hs
    cases he
    have hless := awaitLeft_await hr
    refine ⟨?_, fun p => le_rfl⟩
    cases r with
    | none =>
      simp only [Option.elim_none, thrdLeft, cost] at hless ⊢
      omega
    | some r =>
      simp only [Option.elim_some, thrdLeft, cost] at hless ⊢
      omega
  | exited => cases hs
  | _ =>
    cases hs
    refine ⟨?_, fun p => le_rfl⟩
    simp [thrdLeft, announceLeft]

theorem zero_or_one (i : Fin 2) : i = 0 ∨ i = 1 := by omega

theorem main_left {half : Fin 2 → Half} {m m' : MainPc} {q : Fin 2 → ThrdPc} {k : Bool}
    (h : ∀ j, PairInv j (view j m) (q j) (half j)) (hs : main c half m = some (i, x, k, m')) :
    mainLeft (Function.update half i x) m' + 1 ≤ mainLeft half m + cost c ∧
      thrdLeft (i, q i, x) ≤ thrdLeft (i, q i, half i) := by
  -- what `main` does next for the other thread, or for the first one
  have hlock : ∀ a flag, awaitLeft a flag .lock = 6 := fun _ _ => rfl
  cases m with
  | create i =>
    cases hs
    refine ⟨?_, by cases hq : q i <;> simp [thrdLeft]⟩
    obtain rfl | rfl := zero_or_one i
    · simp [mainLeft, next]
    · simp [mainLeft, next, hlock]
  | await i p =>
    obtain ⟨⟨mtx, cond, r⟩, hr, he⟩ := Option.map_eq_some_iff.1 hs
    cases he
    have hless := awaitLeft_await hr
    refine ⟨?_, by cases hq : q i <;> simp [thrdLeft]⟩
    cases r with
    | some r =>
      simp only [Option.elim_some, mainLeft, cost, Function.update_self] at hless ⊢
      omega
    | none =>
      simp only [Option.elim_none] at hless
      obtain rfl | rfl := zero_or_one i
      · simp only [Option.elim_none, mainLeft, next, hlock, cost] at hless ⊢
        simp
        omega
      · simp only [Option.elim_none, mainLeft, next, cost] at hless ⊢
        simp
        omega
  | kill i =>
    cases hs
    refine ⟨?_, ?_⟩
    · obtain rfl | rfl := zero_or_one i
      · simp [mainLeft, next]
      · simp [mainLeft, next, announceLeft]
    · unfold pthreadKill
      split_ifs <;> cases hq : q i <;> simp [thrdLeft]
  | announce i p =>
    obtain ⟨⟨mtx, cond, flag, r⟩, hr, he⟩ := Option.map_eq_some_iff.1 hs
    cases he
    have hless := announceLeft_announce hr
    refine ⟨?_, ?_⟩
    · cases r with
      | some r =>
        simp only [Option.elim_some, mainLeft] at hless ⊢
        omega
      | none =>
        obtain rfl | rfl := zero_or_one i
        · simp [mainLeft, next, announceLeft] at hless ⊢
          omega
        · simp [mainLeft, next] at hless ⊢
          omega
    · have hsent := (h i).sent
      rw [view_announce] at hsent
      have hmono : ∀ p', awaitLeft (some i ∈ cond) flag p' ≤
          awaitLeft (some i ∈ (half i).sigCond) (half i).sigSent p' := by
        refine awaitLeft_mono ?_
        cases p with
        | lock =>
          obtain ⟨-, he⟩ := Monitor.lock_step hr
          cases he
          exact .inl ⟨rfl, rfl⟩
        | store =>
          cases hr
          exact .inr rfl
        | signal =>
          obtain ⟨cond', -, he⟩ := Option.map_eq_some_iff.1 hr
          cases he
          exact .inr hsent
        | unlock =>
          cases hr
          exact .inl ⟨rfl, rfl⟩
      cases hq : q i <;> simp only [thrdLeft] <;> first | exact le_rfl | exact Nat.add_le_add_left (hmono _) 3
  | join i =>
    simp only [main] at hs
    split_ifs at hs
    cases hs
    refine ⟨?_, le_rfl⟩
    obtain rfl | rfl := zero_or_one i
    · simp [mainLeft, next]
    · simp [mainLeft, next]
  | exit =>
    cases hs
    exact ⟨by simp [mainLeft], le_rfl⟩
  | exited => cases hs

end Left

section Total

variable {tr : List Event} {s : St Thread Shared Loc} {m : MainPc} {q : Fin 2 → ThrdPc} {c : Choice Thread}
  {sh : Shared} {l : Loc} {es : List Event}

/-- every step leaves fewer, but for the wake-ups without a signal -/
theorem left_step (h : Inv tr s m q) {t : Thread} (hs : prog t c s.sh (s.loc t) = some (sh, l, es)) :
    ∃ m' q', Inv (tr ++ es) (s.move t sh l) m' q' ∧ left sh.half m' q' + 1 ≤ left s.sh.half m q + cost c := by
  obtain ⟨m', q', hi⟩ := inv_step h hs
  refine ⟨m', q', hi, ?_⟩
  unfold left
  rcases prog_step h hs with ⟨i, x, k, m₁, rfl, hm, rfl, rfl, rfl⟩ | ⟨i, x, q₁, rfl, hc, ht, rfl, rfl⟩
  · obtain rfl : m₁ = m' := by simpa using hi.main
    obtain rfl : q' = q := funext fun j => by
      have h1 := hi.thrd j
      rw [St.move_loc, Function.update_of_ne (by simp), h.thrd j] at h1
      simpa using h1.symm
    obtain ⟨h1, h2⟩ := main_left h.pair hm
    have hsum : total thrdLeft (fun j => (j, q' j, Function.update s.sh.half i x j)) ≤
        total thrdLeft fun j => (j, q' j, s.sh.half j) := by
      refine Finset.sum_le_sum fun j _ => ?_
      by_cases hj : j = i
      · subst hj
        simpa using h2
      · simp [hj]
    simp only
    omega
  · obtain rfl : m' = m := by
      have h1 := hi.main
      rw [St.move_loc, Function.update_of_ne (by simp), h.main] at h1
      cases h1
      rfl
    obtain rfl : q' = Function.update q i q₁ := funext fun j => by
      have h1 := hi.thrd j
      by_cases hj : j = i
      · subst hj
        simpa [eq_comm] using h1
      · rw [St.move_loc, Function.update_of_ne (by simpa using hj), h.thrd j] at h1
        simpa [hj, eq_comm] using h1
    obtain ⟨h1, h2⟩ := thrd_left (h.pair i) ht
    have hupd : (fun j => (j, Function.update q i q₁ j, Function.update s.sh.half i x j)) =
        Function.update (fun j => (j, q j, s.sh.half j)) i (i, q₁, x) := by
      funext j
      by_cases hj : j = i
      · subst hj
        simp
      · simp [hj]
    have hsum := total_update thrdLeft (fun j => (j, q j, s.sh.half j)) i (i, q₁, x)
    have hmain : mainLeft (Function.update s.sh.half i x) m' ≤ mainLeft s.sh.half m' := by
      cases m' with
      | await j p =>
        simp only [mainLeft]
        by_cases hj : j = i
        · subst hj
          rw [Function.update_self]
          exact Nat.add_le_add_left (h2 p) _
        · rw [Function.update_of_ne hj]
      | _ => exact le_rfl
    simp only
    rw [hupd]
    omega

theorem run_left {mask : Fin 2 → Finset Sig} {as : List (Thread × Choice Thread)} (h : Run prog (start mask) as tr s) :
    ∃ m q, Inv tr s m q ∧ as.length + left s.sh.half m q ≤ 55 + 4 * as.countP fun a => a.2.spurious := by
  induction h with
  | nil => exact ⟨_, _, inv_start mask, le_rfl⟩
  | @snoc as tr s h t c sh l es hs ih =>
    obtain ⟨m, q, hi, hle⟩ := ih
    obtain ⟨m', q', hi', hless⟩ := left_step hi hs
    refine ⟨m', q', hi', ?_⟩
    have hcost : cost c = 4 * if c.spurious then 1 else 0 := by
      unfold cost
      split_ifs <;> rfl
    rw [List.length_append, List.length_singleton, List.countP_append, List.countP_singleton, St.move_sh]
    simp only
    omega

/-- some thread can go on without a wake-up that no signal causes, until `main` has exited -/
theorem Inv.canStep (h : Inv tr s m q) (hm : m ≠ .exited) :
    ∃ t c, c.spurious = false ∧ (prog t c s.sh (s.loc t)).isSome := by
  by_contra hno
  push Not at hno
  have hstuck : ∀ t c, c.spurious = false → prog t c s.sh (s.loc t) = none :=
    fun t c hc => by simpa using hno t c hc
  have hmain : ∀ c, c.spurious = false → IndependantThrdSigmask.main c s.sh.half m = none := fun c hc => by
    have h1 := hstuck none c hc
    simpa [prog, h.alive, h.main] using h1
  have hthrd : ∀ i, view i m ≠ .create → ∀ c, c.spurious = false → thrdFunc i c (s.sh.half i) (q i) = none := by
    intro i hv c hc
    have h1 := hstuck (some i) c hc
    have h2 : (s.sh.half i).created = true := by
      rw [(h.pair i).created]
      exact decide_eq_true hv
    simpa [prog, h.alive, h.thrd i, h2] using h1
  -- a thread that is stuck has exited, or waits, and does not have the mutex
  have hwaits : ∀ i, view i m ≠ .create → (q i).inside = false ∧ (q i = .exited ∨ (s.sh.half i).mtx ≠ none ∨
      (q i = .await .asleep ∧ some i ∈ (s.sh.half i).sigCond)) := by
    intro i hv
    have h1 := hthrd i hv
    generalize q i = p at h1
    cases p with
    | exited => exact ⟨rfl, .inl rfl⟩
    | announce p =>
      obtain ⟨h2, h3⟩ := announce_blocked fun c hc => Option.map_eq_none_iff.1 (h1 c hc)
      exact ⟨h2, .inr (.inl h3)⟩
    | await p =>
      obtain ⟨h2, h3⟩ := await_blocked fun c hc => Option.map_eq_none_iff.1 (h1 c hc)
      refine ⟨h2, ?_⟩
      rcases h3 with ⟨rfl, h3⟩ | h3
      · exact .inr (.inr ⟨rfl, h3⟩)
      · exact .inr (.inl h3)
    | _ => cases h1 ⟨∅, false⟩ rfl
  have hfree : ∀ i, view i m ≠ .create → (view i m).inside = false → (s.sh.half i).mtx = none := by
    intro i hv hin
    rw [(h.pair i).mtx, hin, (hwaits i hv).1]
    rfl
  cases m with
  | await i p =>
    have hv : view i (.await i p) = .await p := view_await i p
    obtain ⟨h2, h3⟩ := await_blocked fun c hc => Option.map_eq_none_iff.1 (hmain c hc)
    have hne : view i (.await i p) ≠ .create := by rw [hv]; simp
    have hmtx := hfree i hne (by rw [hv]; exact h2)
    obtain ⟨rfl, h4⟩ := h3.resolve_right (not_not.2 hmtx)
    obtain ⟨h5, h6⟩ := hwaits i hne
    -- `main` sleeps, so the thread has not set the flag, or has not yet signalled
    rcases (h.pair i).sleeping with h7 | ⟨-, -, h7 | h7⟩
    · rw [h7] at h4
      simp at h4
    · rcases h6 with h6 | h6 | ⟨h6, -⟩
      · rw [h6] at h7
        cases h7
      · exact h6 hmtx
      · rw [h6] at h7
        cases h7
    · rw [h7] at h5
      cases h5
  | announce i p =>
    have hv : view i (.announce i p) = .announce p := view_announce i p
    obtain ⟨h2, h3⟩ := announce_blocked fun c hc => Option.map_eq_none_iff.1 (hmain c hc)
    exact h3 (hfree i (by rw [hv]; simp) (by rw [hv]; exact h2))
  | join i =>
    have hv : view i (.join i) = .announced := rfl
    have hne : view i (.join i) ≠ .create := by rw [hv]; simp
    have hmtx := hfree i hne rfl
    obtain ⟨h5, h6⟩ := hwaits i hne
    have hex : (s.sh.half i).exited = false := by
      have h1 := hmain ⟨∅, false⟩ rfl
      simpa [IndependantThrdSigmask.main] using h1
    rcases h6 with h6 | h6 | ⟨h6, h7⟩
    · rw [(h.pair i).exited, h6] at hex
      cases hex
    · exact h6 hmtx
    · -- the thread sleeps, though `main` has told it
      rcases (h.pair i).waiting with h8 | ⟨-, -, h8 | h8⟩
      · rw [h8] at h7
        simp at h7
      · rw [hv] at h8
        cases h8
      · rw [hv] at h8
        cases h8
  | exited => exact hm rfl
  | _ => cases hmain ⟨∅, false⟩ rfl

/-- **Termination.** A run has at most 55 steps, and four more for each wake-up that no signal causes; as long as `main`
has not exited some thread can take a step that is no such wake-up. -/
theorem sigmask_total {mask : Fin 2 → Finset Sig} {as : List (Thread × Choice Thread)}
    (h : Run prog (start mask) as tr s) :
    as.length ≤ 55 + 4 * (as.countP fun a => a.2.spurious) ∧
      (s.loc none ≠ .main .exited → ∃ t c, c.spurious = false ∧ (prog t c s.sh (s.loc t)).isSome) := by
  obtain ⟨m, q, hi, hle⟩ := run_left h
  refine ⟨by omega, fun hne => hi.canStep ?_⟩
  rintro rfl
  exact hne hi.main

/-- `main` sleeps before a thread has run -/
theorem sigmask_total_start : ∃ as tr s, Run prog (start fun _ => ∅) as tr s ∧ as.length ≤ 55 ∧
    ∃ t c, c.spurious = false ∧ (prog t c s.sh (s.loc t)).isSome := by
  obtain ⟨s, tr, h, hmain⟩ := exec_any_run prog (start fun _ => ∅) (times 5 none ∅)
    (fun s _ => s.loc none = .main (.await 0 .asleep)) (by decide +kernel)
  obtain ⟨hlen, hstep⟩ := sigmask_total h
  refine ⟨_, tr, s, h, hlen.trans (by decide), hstep ?_⟩
  rw [hmain]
  simp

end Total

end OsPractice.IndependantThrdSigmask
