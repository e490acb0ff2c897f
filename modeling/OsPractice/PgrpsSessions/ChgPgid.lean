/-
Waiting for two signals (`pgrps-sessions-taskmngmnt/chg_pgid_for_diff_descendants.c`). The first child sends `SIGUSR1`
to its parent, the second executes `helper` (`helper.c`), which sends `SIGUSR2`; it is given the parent's process ID as
a text. The parent calls `sigsuspend` twice. A call handles all signals that are pending, so that if both are sent before
the first call returns, the second waits for ever.

The parent has handlers for both signals and has blocked them before the first `fork`. No call fails. The parent does not
end before its children, whom it waits for; so `getppid` is its process ID. The process groups are left out.

Results:
- `atol_ppid`: `helper` sends its signal to the parent;
- `inv_step`: what each step keeps of the signals that have been sent and handled;
- `no_lost_wakeup`: when the parent waits although both signals have been handled;
- `Lost.append`: it then waits for ever.
-/
import OsPractice.Core.Decimal
import OsPractice.Core.Interleave
import OsPractice.Core.Signals

namespace OsPractice.ChgPgid

open Bytes Decimal Interleave Signals

/-! ## The program -/

inductive Sig where
  | SIGUSR1
  | SIGUSR2
deriving DecidableEq, Repr

/-- a process ID, which a `pid_t` can hold -/
structure Pid where
  val : ℕ
  pos : 0 < val
  lt : val < 2 ^ 31

inductive Actor where
  | parent
  | child1
  | child2
deriving DecidableEq, Repr

/-- the two calls of `sigsuspend` -/
inductive Call where
  | first
  | second
deriving DecidableEq, Repr

/-- the parent's signals, and its children -/
structure Shared where
  blocked : Bool
  pending : Finset Sig
  forked1 : Bool
  forked2 : Bool
  /-- the children that have exited and have not been waited for -/
  zombies : ℕ

inductive Pc where
  | fork1
  | fork2
  | sigsuspend (call : Call) (ph : Phase)
  | unblock
  | setpgid
  | wait1
  | wait2
  /-- the first child -/
  | kill
  /-- the second child -/
  | execl
  | helper (argv1 : List Byte)
  | exit
  | ended
deriving DecidableEq, Repr

inductive Event where
  | sent (sig : Sig)
  | handled (sig : Sig)
  | returned (call : Call)
deriving DecidableEq, Repr

/-- `kill` with the parent's process ID -/
def send (sig : Sig) (sh : Shared) : Shared × List Event :=
  if sh.blocked then ({ sh with pending := insert sig sh.pending }, [.sent sig]) else (sh, [.sent sig, .handled sig])

/-- the handlers of all pending signals run -/
def handleAll (pending : Finset Sig) : List Event :=
  ([Sig.SIGUSR1, Sig.SIGUSR2].filter (· ∈ pending)).map .handled

def wait (next : Pc) (sh : Shared) : Option (Shared × Pc × List Event) :=
  if sh.zombies = 0 then none else some ({ sh with zombies := sh.zombies - 1 }, next, [])

/-- the parent; `c` is for `sigsuspend` -/
def parent (c : Option Sig) (sh : Shared) : Pc → Option (Shared × Pc × List Event)
  | .fork1 => some ({ sh with forked1 := true }, .fork2, [])
  | .fork2 => some ({ sh with forked2 := true }, .sigsuspend .first .waiting, [])
  | .sigsuspend call ph =>
    match sigsuspend ∅ ph sh.pending c with
    | none => none
    | some (pending, some ph) =>
      some ({ sh with pending := pending }, .sigsuspend call ph, (c.map Event.handled).toList)
    | some (pending, none) =>
      match call with
      | .first => some ({ sh with pending := pending }, .sigsuspend .second .waiting, [.returned .first])
      | .second => some ({ sh with pending := pending }, .unblock, [.returned .second])
  | .unblock => some ({ sh with blocked := false, pending := ∅ }, .setpgid, handleAll sh.pending)
  | .setpgid => some (sh, .wait1, [])
  | .wait1 => wait .wait2 sh
  | .wait2 => wait .ended sh
  | _ => none

def child1 (sh : Shared) : Pc → Option (Shared × Pc × List Event)
  | .kill => if sh.forked1 then some ((send .SIGUSR1 sh).1, .exit, (send .SIGUSR1 sh).2) else none
  | .exit => some ({ sh with zombies := sh.zombies + 1 }, .ended, [])
  | _ => none

/-- `atol(argv[1])`, which is kept in a `pid_t` -/
def atol (argv1 : List Byte) : BitVec 32 := BitVec.ofInt 32 (strtoll argv1).1

def child2 (ppid : Pid) (sh : Shared) : Pc → Option (Shared × Pc × List Event)
  | .execl => if sh.forked2 then some (sh, .helper ((numeral ppid.val).take 127), []) else none
  | .helper argv1 =>
    if (atol argv1).toInt = ppid.val then some ((send .SIGUSR2 sh).1, .exit, (send .SIGUSR2 sh).2)
    -- another process gets the signal
    else some (sh, .exit, [])
  | .exit => some ({ sh with zombies := sh.zombies + 1 }, .ended, [])
  | _ => none

def prog (ppid : Pid) : Prog Actor (Option Sig) Shared Pc Event := fun t c sh pc =>
  match t with
  | .parent => parent c sh pc
  | .child1 => child1 sh pc
  | .child2 => child2 ppid sh pc

/-- the signals are blocked -/
def start : St Actor Shared Pc where
  sh := ⟨true, ∅, false, false, 0⟩
  loc
    | .parent => .fork1
    | .child1 => .kill
    | .child2 => .execl

/-! ## What goes wrong -/

variable {ppid : Pid} {tr es : List Event} {s : St Actor Shared Pc}

/-- the parent waits in `sigsuspend`, and both signals have been sent and handled -/
def Lost (tr : List Event) (s : St Actor Shared Pc) : Prop :=
  (∃ call, s.loc .parent = .sigsuspend call .waiting) ∧ ∀ sig, .sent sig ∈ tr ∧ .handled sig ∈ tr

/-- both signals have been sent when the first call of `sigsuspend` returns -/
def Together (tr : List Event) : Prop :=
  ∃ pre post, tr = pre ++ .returned .first :: post ∧ ∀ sig, .sent sig ∈ pre

theorem Together.append (h : Together tr) (es : List Event) : Together (tr ++ es) := by
  obtain ⟨pre, post, rfl, hsent⟩ := h
  exact ⟨pre, post ++ es, by simp, hsent⟩

/-- only a return of the first call makes a difference -/
theorem together_append (hes : .returned .first ∉ es) : Together (tr ++ es) ↔ Together tr := by
  refine ⟨?_, fun h => h.append es⟩
  rintro ⟨pre, post, h, hsent⟩
  rcases split_append h with ⟨post', htr⟩ | ⟨pre', -, he⟩
  · exact ⟨pre, post', htr, hsent⟩
  · refine absurd ?_ hes
    rw [he]
    simp

/-- `helper` sends its signal to the parent -/
theorem atol_ppid (ppid : Pid) : (atol ((numeral ppid.val).take 127)).toInt = ppid.val := by
  have hlen : (numeral ppid.val).length ≤ 127 := numeral_length (by decide) (ppid.lt.trans (by norm_num))
  have hlt := ppid.lt
  have hread := (numeral_canonical ppid.val).denotes.strtoll.1
  rw [value_numeral, clamp_eq_self (by omega) (by omega)] at hread
  rw [atol, List.take_of_length_le hlen, hread, BitVec.ofInt_natCast, toInt_ofNat hlt]

/-! ## The invariant -/

/-- what the parent's place says of the trace -/
def At (blocked : Bool) (tr : List Event) : Pc → Prop
  | .fork1 | .fork2 | .sigsuspend .first .waiting =>
    blocked = true ∧ .returned .first ∉ tr ∧ ∀ sig, .handled sig ∉ tr
  | .sigsuspend .first .handling => blocked = true ∧ .returned .first ∉ tr
  | .sigsuspend .second .waiting => blocked = true ∧ (Together tr ↔ ∀ sig, .handled sig ∈ tr)
  | .sigsuspend .second .handling | .unblock => blocked = true ∧ ¬ Together tr
  | .setpgid | .wait1 | .wait2 | .ended => ¬ Together tr
  | _ => False

/-- what the place of a child says of the signal that it sends -/
def Sends (ppid : Pid) (tr : List Event) (sig : Sig) : Pc → Prop
  | .kill | .execl => .sent sig ∉ tr
  | .helper argv1 => argv1 = (numeral ppid.val).take 127 ∧ .sent sig ∉ tr
  | .exit | .ended => .sent sig ∈ tr
  | _ => False

/-- the signals that have been sent are pending, or have been handled -/
structure Account (tr : List Event) (pending : Finset Sig) : Prop where
  sent : ∀ sig, .sent sig ∈ tr ↔ sig ∈ pending ∨ .handled sig ∈ tr
  once : ∀ sig ∈ pending, .handled sig ∉ tr

structure Inv (ppid : Pid) (tr : List Event) (s : St Actor Shared Pc) : Prop where
  account : Account tr s.sh.pending
  parent : At s.sh.blocked tr (s.loc .parent)
  child1 : Sends ppid tr .SIGUSR1 (s.loc .child1)
  child2 : Sends ppid tr .SIGUSR2 (s.loc .child2)

variable {sh sh' : Shared} {pc pc' : Pc} {sig : Sig} {pending : Finset Sig} {blocked : Bool}

theorem inv_start (ppid : Pid) : Inv ppid [] start where
  account := ⟨by simp [start], by simp [start]⟩
  parent := ⟨rfl, by simp, by simp⟩
  child1 := List.not_mem_nil
  child2 := List.not_mem_nil

/-- events that are no return of the first call, and no handlers while the signals are blocked -/
theorem At.append (h : At blocked tr pc) (hret : .returned .first ∉ es)
    (hhandled : blocked = true → ∀ sig, .handled sig ∉ es) : At blocked (tr ++ es) pc := by
  have hreturned (hno : .returned .first ∉ tr) : .returned .first ∉ tr ++ es := by
    rw [List.mem_append, not_or]
    exact ⟨hno, hret⟩
  have hmem (hb : blocked = true) (sig : Sig) : .handled sig ∈ tr ++ es ↔ .handled sig ∈ tr := by
    rw [List.mem_append, or_iff_left (hhandled hb sig)]
  unfold At at h ⊢
  split at h
  all_goals first
    | exact ⟨h.1, hreturned h.2.1, fun sig => (hmem h.1 sig).not.2 (h.2.2 sig)⟩
    | exact ⟨h.1, hreturned h.2⟩
    | exact ⟨h.1, by rw [together_append hret, h.2]; exact forall_congr' fun sig => (hmem h.1 sig).symm⟩
    | exact ⟨h.1, (together_append hret).not.2 h.2⟩
    | exact (together_append hret).not.2 h
    | exact h

theorem Sends.append (h : Sends ppid tr sig pc) (hes : .sent sig ∉ es) : Sends ppid (tr ++ es) sig pc := by
  have hmem : .sent sig ∈ tr ++ es ↔ .sent sig ∈ tr := by rw [List.mem_append, or_iff_left hes]
  unfold Sends at h ⊢
  split at h
  all_goals first
    | exact hmem.not.2 h
    | exact ⟨h.1, hmem.not.2 h.2⟩
    | exact hmem.2 h
    | exact h

/-! ## The signals -/

/-- a signal that has not been sent yet -/
theorem Account.send (h : Account tr sh.pending) (hnew : .sent sig ∉ tr) :
    Account (tr ++ (send sig sh).2) (send sig sh).1.pending := by
  have hpending : sig ∉ sh.pending := fun hmem => hnew ((h.sent sig).2 (.inl hmem))
  have hhandled : .handled sig ∉ tr := fun hmem => hnew ((h.sent sig).2 (.inr hmem))
  unfold ChgPgid.send
  split_ifs
  · constructor
    · intro x
      simp only [List.mem_append, List.mem_singleton, Event.sent.injEq, reduceCtorEq, or_false, Finset.mem_insert, h.sent]
      tauto
    · intro x hx
      rw [List.mem_append, not_or]
      refine ⟨?_, by simp⟩
      rcases Finset.mem_insert.1 hx with rfl | hx
      · exact hhandled
      · exact h.once x hx
  · constructor
    · intro x
      simp only [List.mem_append, List.mem_cons, Event.sent.injEq, Event.handled.injEq, reduceCtorEq, List.not_mem_nil,
        or_false, false_or, h.sent]
      tauto
    · intro x hx
      rw [List.mem_append, not_or]
      refine ⟨h.once x hx, ?_⟩
      have hne : x ≠ sig := ne_of_mem_of_not_mem hx hpending
      simpa using hne

theorem Account.handle (h : Account tr pending) (hsig : sig ∈ pending) :
    Account (tr ++ [.handled sig]) (pending.erase sig) := by
  constructor
  · intro x
    simp only [List.mem_append, List.mem_singleton, Event.handled.injEq, reduceCtorEq, or_false, Finset.mem_erase, h.sent]
    by_cases hx : x = sig
    · simp [hx, hsig]
    · simp [hx]
  · intro x hx
    obtain ⟨hne, hmem⟩ := Finset.mem_erase.1 hx
    rw [List.mem_append, not_or]
    exact ⟨h.once x hmem, by simpa using hne⟩

theorem mem_handleAll : .handled sig ∈ handleAll pending ↔ sig ∈ pending := by
  cases sig <;> simp [handleAll]

theorem Account.handleAll (h : Account tr pending) : Account (tr ++ handleAll pending) ∅ := by
  have hsent (x : Sig) : .sent x ∉ ChgPgid.handleAll pending := by simp [ChgPgid.handleAll]
  constructor
  · intro x
    rw [List.mem_append, or_iff_left (hsent x), h.sent, List.mem_append, mem_handleAll]
    simp [or_comm]
  · intro x hx
    cases Finset.notMem_empty x hx

theorem Account.returned (h : Account tr pending) (call : Call) : Account (tr ++ [.returned call]) pending := by
  constructor
  · intro x
    simpa using h.sent x
  · intro x hx
    simpa using h.once x hx

/-! ## Steps -/

/-- a step of the parent -/
theorem parent_step {c : Option Sig} (hacc : Account tr sh.pending) (hat : At sh.blocked tr pc)
    (hs : parent c sh pc = some (sh', pc', es)) :
    Account (tr ++ es) sh'.pending ∧ At sh'.blocked (tr ++ es) pc' ∧ ∀ sig, .sent sig ∉ es := by
  unfold parent wait at hs
  split at hs
  · -- the children are started
    cases hs
    rw [List.append_nil]
    exact ⟨hacc, hat, fun sig => List.not_mem_nil⟩
  · cases hs
    rw [List.append_nil]
    exact ⟨hacc, hat, fun sig => List.not_mem_nil⟩
  · rename_i call ph
    split at hs
    · cases hs
    · -- a handler runs
      rename_i pending ph' hcall
      cases hs
      obtain ⟨sig, hmem, -, rfl, rfl, rfl⟩ := sigsuspend_handled hcall
      refine ⟨hacc.handle hmem, ?_, by simp⟩
      have hret : .returned .first ∉ [Event.handled sig] := by simp
      cases call with
      | first =>
        have hno : sh.blocked = true ∧ .returned .first ∉ tr := by
          cases ph with
          | waiting => exact ⟨hat.1, hat.2.1⟩
          | handling => exact hat
        refine ⟨hno.1, ?_⟩
        simpa using hno.2
      | second =>
        -- one signal has not been handled
        have hno : sh.blocked = true ∧ ¬ Together tr := by
          cases ph with
          | waiting => exact ⟨hat.1, fun h => hacc.once sig hmem (hat.2.1 h sig)⟩
          | handling => exact hat
        exact ⟨hno.1, (together_append hret).not.2 hno.2⟩
    · rename_i pending hcall
      obtain ⟨-, rfl, hnone, rfl⟩ := sigsuspend_returned hcall
      have hempty : sh.pending = ∅ := Finset.subset_empty.1 hnone
      cases call with
      | first =>
        cases hs
        refine ⟨hacc.returned .first, ⟨hat.1, ?_⟩, by simp⟩
        have hsent (sig : Sig) : .sent sig ∈ tr ↔ .handled sig ∈ tr ++ [.returned .first] := by
          rw [hacc.sent sig, hempty]
          simp
        constructor
        · rintro ⟨pre, post, htr, hpre⟩ sig
          rcases split_append htr with ⟨post', hbefore⟩ | ⟨pre', rfl, he⟩
          · refine absurd ?_ hat.2
            rw [hbefore]
            simp
          · rcases pre' with _ | ⟨e, pre'⟩
            · rw [← hsent sig]
              simpa using hpre sig
            · simp at he
        · exact fun hall => ⟨tr, [], rfl, fun sig => (hsent sig).2 (hall sig)⟩
      | second =>
        cases hs
        have hret : .returned .first ∉ [Event.returned .second] := by simp
        exact ⟨hacc.returned .second, ⟨hat.1, (together_append hret).not.2 hat.2⟩, by simp⟩
  · cases hs
    refine ⟨hacc.handleAll, ?_, by simp [handleAll]⟩
    exact (together_append (by simp [handleAll])).not.2 hat.2
  · cases hs
    rw [List.append_nil]
    exact ⟨hacc, hat, fun sig => List.not_mem_nil⟩
  · split_ifs at hs
    cases hs
    rw [List.append_nil]
    exact ⟨hacc, hat, fun sig => List.not_mem_nil⟩
  · split_ifs at hs
    cases hs
    rw [List.append_nil]
    exact ⟨hacc, hat, fun sig => List.not_mem_nil⟩
  · cases hs

/-- `send` and what it says of the trace -/
theorem send_events (sig : Sig) (sh : Shared) :
    .sent sig ∈ (send sig sh).2 ∧ (∀ x, x ≠ sig → .sent x ∉ (send sig sh).2) ∧ .returned .first ∉ (send sig sh).2 ∧
      (sh.blocked = true → ∀ x, .handled x ∉ (send sig sh).2) ∧ (send sig sh).1.blocked = sh.blocked := by
  unfold send
  split_ifs with hblocked
  · simp [hblocked]
  · simp [hblocked]

/-- a step of the first child -/
theorem child1_step (hacc : Account tr sh.pending) (hpc : Sends ppid tr .SIGUSR1 pc)
    (hs : child1 sh pc = some (sh', pc', es)) :
    Account (tr ++ es) sh'.pending ∧ Sends ppid (tr ++ es) .SIGUSR1 pc' ∧ .sent .SIGUSR2 ∉ es ∧
      .returned .first ∉ es ∧ (sh.blocked = true → ∀ x, .handled x ∉ es) ∧ sh'.blocked = sh.blocked := by
  unfold child1 at hs
  split at hs
  · split_ifs at hs
    cases hs
    obtain ⟨hsent, hother, hret, hhandled, hblocked⟩ := send_events .SIGUSR1 sh
    exact ⟨hacc.send hpc, List.mem_append_right tr hsent, hother .SIGUSR2 (by decide), hret, hhandled, hblocked⟩
  · cases hs
    rw [List.append_nil]
    exact ⟨hacc, hpc, by simp, by simp, by simp, rfl⟩
  · cases hs

/-- a step of the second child: the text that `helper` is given is the parent's process ID -/
theorem child2_step (hacc : Account tr sh.pending) (hpc : Sends ppid tr .SIGUSR2 pc)
    (hs : child2 ppid sh pc = some (sh', pc', es)) :
    Account (tr ++ es) sh'.pending ∧ Sends ppid (tr ++ es) .SIGUSR2 pc' ∧ .sent .SIGUSR1 ∉ es ∧
      .returned .first ∉ es ∧ (sh.blocked = true → ∀ x, .handled x ∉ es) ∧ sh'.blocked = sh.blocked := by
  unfold child2 at hs
  split at hs
  · split_ifs at hs
    cases hs
    rw [List.append_nil]
    exact ⟨hacc, ⟨rfl, hpc⟩, by simp, by simp, by simp, rfl⟩
  · obtain ⟨rfl, hnew⟩ := hpc
    rw [if_pos (atol_ppid ppid)] at hs
    cases hs
    obtain ⟨hsent, hother, hret, hhandled, hblocked⟩ := send_events .SIGUSR2 sh
    exact ⟨hacc.send hnew, List.mem_append_right tr hsent, hother .SIGUSR1 (by decide), hret, hhandled, hblocked⟩
  · cases hs
    rw [List.append_nil]
    exact ⟨hacc, hpc, by simp, by simp, by simp, rfl⟩
  · cases hs

theorem inv_step (h : Inv ppid tr s) {t : Actor} {c : Option Sig}
    (hs : prog ppid t c s.sh (s.loc t) = some (sh', pc', es)) : Inv ppid (tr ++ es) (s.move t sh' pc') := by
  cases t with
  | parent =>
    obtain ⟨hacc, hat, hsent⟩ := parent_step h.account h.parent hs
    exact ⟨hacc, by simpa using hat, by simpa using h.child1.append (hsent _), by simpa using h.child2.append (hsent _)⟩
  | child1 =>
    obtain ⟨hacc, hsends, hother, hret, hhandled, hblocked⟩ := child1_step h.account h.child1 hs
    have hparent := h.parent.append hret hhandled
    rw [← hblocked] at hparent
    exact ⟨hacc, by simpa using hparent, by simpa using hsends, by simpa using h.child2.append hother⟩
  | child2 =>
    obtain ⟨hacc, hsends, hother, hret, hhandled, hblocked⟩ := child2_step h.account h.child2 hs
    have hparent := h.parent.append hret hhandled
    rw [← hblocked] at hparent
    exact ⟨hacc, by simpa using hparent, by simpa using h.child1.append hother, by simpa using hsends⟩

theorem run_inv {as : List (Actor × Option Sig)} (h : Run (prog ppid) start as tr s) : Inv ppid tr s :=
  h.inv_trace (inv_start ppid) fun _ _ _ _ _ _ _ hinv hs => inv_step hinv hs

/-! ## The second call -/

theorem Inv.lost_iff (h : Inv ppid tr s) : Lost tr s ↔ Together tr := by
  have hsent (sig : Sig) (hhandled : .handled sig ∈ tr) : .sent sig ∈ tr := (h.account.sent sig).2 (.inr hhandled)
  have hat := h.parent
  constructor
  · rintro ⟨⟨call, hpc⟩, hall⟩
    rw [hpc] at hat
    cases call with
    | first => exact absurd (hall .SIGUSR1).2 (hat.2.2 .SIGUSR1)
    | second => exact hat.2.2 fun sig => (hall sig).2
  · intro htogether
    have hreturned : .returned .first ∈ tr := by
      obtain ⟨pre, post, rfl, -⟩ := htogether
      simp
    cases hpc : s.loc .parent with
    | sigsuspend call ph =>
      rw [hpc] at hat
      match call, ph, hat with
      | .first, .waiting, hat => exact absurd hreturned hat.2.1
      | .first, .handling, hat => exact absurd hreturned hat.2
      | .second, .waiting, hat =>
        have hall := hat.2.1 htogether
        exact ⟨⟨.second, hpc⟩, fun sig => ⟨hsent sig (hall sig), hall sig⟩⟩
      | .second, .handling, hat => exact absurd htogether hat.2
    | fork1 => rw [hpc] at hat; exact absurd hreturned hat.2.1
    | fork2 => rw [hpc] at hat; exact absurd hreturned hat.2.1
    | unblock => rw [hpc] at hat; exact absurd htogether hat.2
    | setpgid => rw [hpc] at hat; exact absurd htogether hat
    | wait1 => rw [hpc] at hat; exact absurd htogether hat
    | wait2 => rw [hpc] at hat; exact absurd htogether hat
    | ended => rw [hpc] at hat; exact absurd htogether hat
    | kill => rw [hpc] at hat; exact hat.elim
    | execl => rw [hpc] at hat; exact hat.elim
    | helper argv1 => rw [hpc] at hat; exact hat.elim
    | exit => rw [hpc] at hat; exact hat.elim

/-- **No lost wake-up.** For every order of the steps: the parent does not wait in `sigsuspend` with both signals sent
and handled, if and only if not both of them have been sent when the first call returns. -/
theorem no_lost_wakeup {as : List (Actor × Option Sig)} (h : Run (prog ppid) start as tr s) :
    ¬ Lost tr s ↔ ¬ Together tr := (run_inv h).lost_iff.not

/-- a parent that waits so waits for ever -/
theorem Lost.append {as bs : List (Actor × Option Sig)} {s' : St Actor Shared Pc}
    (hlost : Lost tr s) (h : Run (prog ppid) start as tr s) (h' : Run (prog ppid) s bs es s') : Lost (tr ++ es) s' :=
  (run_inv (h.append h')).lost_iff.2 (((run_inv h).lost_iff.1 hlost).append es)

/-- a process ID -/
def sampleId : Pid := ⟨7, by decide, by decide⟩

/-- the second signal is sent after the first call has returned -/
theorem no_lost_wakeup_apart : ∃ as tr s, Run (prog sampleId) start as tr s ∧
    s.loc .parent = .sigsuspend .second .waiting ∧ ¬ Lost tr s := by
  obtain ⟨s, tr, hrun, hpc, htr⟩ := exec_any_run (prog sampleId) start
    [(.parent, none), (.parent, none), (.child1, none), (.parent, some .SIGUSR1), (.parent, none)]
    (fun s tr => s.loc .parent = .sigsuspend .second .waiting ∧ .sent .SIGUSR2 ∉ tr) (by decide)
  refine ⟨_, tr, s, hrun, hpc, (no_lost_wakeup hrun).2 ?_⟩
  rintro ⟨pre, post, rfl, hsent⟩
  exact htr (List.mem_append_left _ (hsent .SIGUSR2))

/-- both signals are sent before the parent has called `sigsuspend` -/
theorem not_no_lost_wakeup : ¬ ∀ ppid as tr s, Run (prog ppid) start as tr s → ¬ Lost tr s := by
  intro h
  obtain ⟨s, tr, hrun, hpc, htr⟩ := exec_any_run (prog sampleId) start
    [(.parent, none), (.child1, none), (.parent, none), (.child2, none), (.child2, none), (.parent, some .SIGUSR1),
      (.parent, some .SIGUSR2), (.parent, none)]
    (fun s tr => s.loc .parent = .sigsuspend .second .waiting ∧ .sent .SIGUSR1 ∈ tr ∧ .handled .SIGUSR1 ∈ tr ∧
      .sent .SIGUSR2 ∈ tr ∧ .handled .SIGUSR2 ∈ tr) (by decide)
  refine h sampleId _ tr s hrun ⟨⟨.second, hpc⟩, fun sig => ?_⟩
  cases sig with
  | SIGUSR1 => exact ⟨htr.1, htr.2.1⟩
  | SIGUSR2 => exact htr.2.2

end OsPractice.ChgPgid
