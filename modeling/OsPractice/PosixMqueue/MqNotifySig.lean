/-
Notification by a signal (`POSIX-mqueue/mq_notify_sig.c`). The program registers for a signal, waits for it in
`sigsuspend`, and should then read all messages and wait again. It does not register before it looks at the queue, but
only after the first signal; and behind that it calls `errExit`, so that no message is ever read.

The queue is open, and the signal is blocked, as the program's first calls have seen to; its reads do not wait. Other
processes send messages to the queue at any time and do nothing else with it. The arrival of a message in an empty queue
raises the signal if the program is registered, and ends the registration.

Results:
- `never_reads`: the messages that were in the queue or have arrived are all there;
- `quiet_run`: what the program comes to without messages;
- `awake_iff`: when it does not end, or sleep while there is a message.
-/
import OsPractice.Core.Bytes
import OsPractice.Core.Interleave
import OsPractice.Core.MessageQueue
import OsPractice.Core.Signals

namespace OsPractice.MqNotifySig

open Bytes Interleave MessageQueue Signals

/-! ## The program -/

/-- `SIGUSR1` is the only signal -/
inductive Sig where
  | NOTIFY_SIG
deriving DecidableEq, Repr

structure Shared where
  queue : Queue Byte
  /-- the program is registered for the notification -/
  registered : Bool
  pending : Finset Sig

inductive Actor where
  | reader
  | sender
deriving DecidableEq, Repr

/-- where the program is; the registration comes first -/
inductive Pc where
  | mqNotify
  | sigsuspend (ph : Phase)
  | mqNotifyAgain
  | setSingleNotify
  | errExit
  | mqReceive
  | ended
deriving DecidableEq, Repr

structure Local where
  pc : Pc
  singleNotify : Bool
deriving DecidableEq, Repr

/-- `mq_notify`; `none` when there is a registration already -/
def mqNotify (sh : Shared) : Option Shared := if sh.registered then none else some { sh with registered := true }

/-- a step of the program; `c` is for `sigsuspend` -/
def reader (c : Option Sig) (sh : Shared) (l : Local) : Option (Shared × Local) :=
  match l.pc with
  | .mqNotify =>
    match mqNotify sh with
    | none => some (sh, { l with pc := .ended })
    | some sh => some (sh, { l with pc := .sigsuspend .waiting })
  | .sigsuspend ph =>
    match sigsuspend ∅ ph sh.pending c with
    | none => none
    | some (pending, some ph) => some ({ sh with pending := pending }, { l with pc := .sigsuspend ph })
    | some (pending, none) => some ({ sh with pending := pending }, { l with pc := .mqNotifyAgain })
  | .mqNotifyAgain =>
    if l.singleNotify = false then
      match mqNotify sh with
      | none => some (sh, { l with pc := .ended })
      | some sh => some (sh, { l with pc := .setSingleNotify })
    else some (sh, { l with pc := .setSingleNotify })
  | .setSingleNotify => some (sh, ⟨.errExit, true⟩)
  -- it does not return: the loop over the messages is not reached
  | .errExit => some (sh, { l with pc := .ended })
  | .mqReceive =>
    match receive sh.queue.attr.msgsize sh.queue with
    | .done (queue, _) => some ({ sh with queue := queue }, l)
    -- `EAGAIN`
    | .blocked => some (sh, { l with pc := .sigsuspend .waiting })
    | .failed => some (sh, { l with pc := .ended })
  | .ended => none

/-- a message arrives; `none` when there is no room for it -/
def sender (msg : List Byte) (sh : Shared) : Option Shared :=
  match send msg sh.queue with
  | .done queue =>
    if sh.queue.msgs = [] ∧ sh.registered = true then
      some ⟨queue, false, insert .NOTIFY_SIG sh.pending⟩
    else some { sh with queue := queue }
  | _ => none

/-- the choices are the signal whose handler is run next, and the message that is sent; the events are the messages -/
def prog : Prog Actor (Option Sig × List Byte) Shared Local (List Byte) := fun t c sh l =>
  match t with
  | .reader => (reader c.1 sh l).map fun (sh, l) => (sh, l, [])
  | .sender => (sender c.2 sh).map fun sh => (sh, l, [c.2])

/-- the program is about to register; `queue` is what it finds -/
def start (queue : Queue Byte) : St Actor Shared Local := ⟨⟨queue, false, ∅⟩, fun _ => ⟨.mqNotify, false⟩⟩

/-- the program runs, and does not sleep over a message -/
def Awake (sh : Shared) (l : Local) : Prop :=
  l.pc ≠ .ended ∧ ¬ (l.pc = .sigsuspend .waiting ∧ sh.pending = ∅ ∧ sh.queue.msgs ≠ [])

/-! ## The queue -/

variable {queue : Queue Byte} {as : List (Actor × (Option Sig × List Byte))} {tr tr' : List (List Byte)}
  {s : St Actor Shared Local} {sh sh' : Shared} {l l' : Local} {c : Option Sig × List Byte} {msg : List Byte}

/-- the program's steps leave the queue as it is, if it is not at the loop over the messages, and do not lead there -/
theorem reader_queue {c : Option Sig} (h : reader c sh l = some (sh', l')) (hpc : l.pc ≠ .mqReceive) :
    sh'.queue = sh.queue ∧ l'.pc ≠ .mqReceive := by
  unfold reader mqNotify at h
  split at h
  · split_ifs at h <;> cases h <;> exact ⟨rfl, Pc.noConfusion⟩
  · split at h <;> cases h <;> exact ⟨rfl, Pc.noConfusion⟩
  · split_ifs at h <;> cases h <;> exact ⟨rfl, Pc.noConfusion⟩
  · cases h
    exact ⟨rfl, Pc.noConfusion⟩
  · cases h
    exact ⟨rfl, Pc.noConfusion⟩
  · rename_i hrecv
    exact absurd hrecv hpc
  · cases h

theorem sender_queue (h : sender msg sh = some sh') : sh'.queue.msgs = sh.queue.msgs ++ [msg] := by
  unfold sender send at h
  split_ifs at h <;> cases h <;> rfl

/-- **No message is read.** Those that were there at the start, and those that have arrived, are in the queue. -/
theorem never_reads (h : Run prog (start queue) as tr s) :
    s.sh.queue.msgs = queue.msgs ++ tr ∧ (s.loc .reader).pc ≠ .mqReceive := by
  refine h.inv_trace (I := fun tr s => s.sh.queue.msgs = queue.msgs ++ tr ∧ (s.loc .reader).pc ≠ .mqReceive) ?_ ?_
  · exact ⟨(List.append_nil _).symm, Pc.noConfusion⟩
  · rintro tr s t c sh l es ⟨hqueue, hpc⟩ hs
    cases t with
    | reader =>
      obtain ⟨⟨sh', l'⟩, hstep, he⟩ := Option.map_eq_some_iff.1 hs
      cases he
      obtain ⟨hsame, hpc'⟩ := reader_queue hstep hpc
      refine ⟨?_, by simpa using hpc'⟩
      rw [St.move_sh, hsame, hqueue, List.append_nil]
    | sender =>
      obtain ⟨sh', hstep, he⟩ := Option.map_eq_some_iff.1 hs
      cases he
      refine ⟨?_, by simpa using hpc⟩
      rw [St.move_sh, sender_queue hstep, hqueue, List.append_assoc]

/-! ## Without messages -/

/-- the program registers and waits, and there is nothing to wait for -/
structure Quiet (s : St Actor Shared Local) : Prop where
  pending : s.sh.pending = ∅
  pc : (s.loc .reader).pc = .mqNotify ∧ s.sh.registered = false ∨ (s.loc .reader).pc = .sigsuspend .waiting

theorem quiet_run (h : Run prog (start queue) as [] s) : Quiet s := by
  suffices hquiet : ∀ tr, Run prog (start queue) as tr s → tr = [] → Quiet s from hquiet [] h rfl
  intro tr h
  refine h.inv_trace (I := fun tr s => tr = [] → Quiet s) ?_ ?_
  · exact fun _ => ⟨rfl, .inl ⟨rfl, rfl⟩⟩
  · intro tr s t c sh l es ih hs hnone
    obtain ⟨rfl, rfl⟩ := List.append_eq_nil_iff.1 hnone
    obtain ⟨hpending, hpc⟩ := ih rfl
    cases t with
    | reader =>
      obtain ⟨⟨sh', l'⟩, hstep, he⟩ := Option.map_eq_some_iff.1 hs
      cases he
      rcases hpc with ⟨hpc, hreg⟩ | hpc
      · simp only [reader, hpc, mqNotify, hreg, Bool.false_eq_true, if_false] at hstep
        cases hstep
        exact ⟨hpending, .inr (by simp)⟩
      · -- nothing is pending
        have hwait := waits_iff.2 (le_of_eq hpending) c.1
        simp only [reader, hpc, hwait] at hstep
        cases hstep
    | sender =>
      obtain ⟨sh', hstep, he⟩ := Option.map_eq_some_iff.1 hs
      cases he

/-! ## With messages -/

/-- the program can go on to its end, or to sleep over the messages in the queue -/
def Fails (sh : Shared) (l : Local) : Prop := ∃ sh' l', Alone prog .reader sh l [] sh' l' ∧ ¬ Awake sh' l'

theorem Fails.head {c : Option Sig} (h : reader c sh l = some (sh', l')) (hfails : Fails sh' l') : Fails sh l := by
  obtain ⟨sh'', l'', halone, hend⟩ := hfails
  refine ⟨sh'', l'', Alone.silent (c := (c, [])) ?_ halone, hend⟩
  rw [prog, h]
  rfl

theorem fails_ended (h : l.pc = .ended) : Fails sh l := ⟨sh, l, .refl sh l, fun hawake => hawake.1 h⟩

theorem fails_errExit (h : l.pc = .errExit) : Fails sh l := by
  have hend : Fails sh { l with pc := .ended } := fails_ended rfl
  refine Fails.head (c := none) ?_ hend
  rw [reader, h]

theorem fails_setSingleNotify (h : l.pc = .setSingleNotify) : Fails sh l := by
  have hend : Fails sh ⟨.errExit, true⟩ := fails_errExit rfl
  refine Fails.head (c := none) ?_ hend
  rw [reader, h]

theorem fails_mqNotifyAgain (h : l.pc = .mqNotifyAgain) : Fails sh l := by
  have hset (sh : Shared) : Fails sh { l with pc := .setSingleNotify } := fails_setSingleNotify rfl
  by_cases hsingle : l.singleNotify = false
  · by_cases hreg : sh.registered = true
    · have hend : Fails sh { l with pc := .ended } := fails_ended rfl
      refine Fails.head (c := none) ?_ hend
      simp [reader, h, hsingle, mqNotify, hreg]
    · refine Fails.head (c := none) ?_ (hset { sh with registered := true })
      simp [reader, h, hsingle, mqNotify, hreg]
  · refine Fails.head (c := none) ?_ (hset sh)
    simp [reader, h, hsingle]

theorem fails_returning (h : l.pc = .sigsuspend .handling) (hpending : sh.pending = ∅) : Fails sh l := by
  have hagain : Fails { sh with pending := ∅ } { l with pc := .mqNotifyAgain } := fails_mqNotifyAgain rfl
  refine Fails.head (c := none) ?_ hagain
  simp [reader, h, sigsuspend, hpending]

theorem fails_pending {ph : Phase} (h : l.pc = .sigsuspend ph) (hpending : sh.pending ≠ ∅) : Fails sh l := by
  obtain ⟨⟨⟩, hmem⟩ := Finset.nonempty_iff_ne_empty.2 hpending
  have hnone : sh.pending.erase .NOTIFY_SIG = ∅ := by
    refine Finset.eq_empty_of_forall_notMem fun sig hsig => ?_
    cases sig
    exact Finset.notMem_erase _ _ hsig
  have hreturn : Fails { sh with pending := sh.pending.erase .NOTIFY_SIG } { l with pc := .sigsuspend .handling } :=
    fails_returning rfl hnone
  refine Fails.head (c := some .NOTIFY_SIG) ?_ hreturn
  simp [reader, h, sigsuspend, hmem]

theorem fails_sigsuspend {ph : Phase} (h : l.pc = .sigsuspend ph) (hmsgs : sh.queue.msgs ≠ []) : Fails sh l := by
  by_cases hpending : sh.pending = ∅
  · cases ph with
    | waiting => exact ⟨sh, l, .refl sh l, fun hawake => hawake.2 ⟨h, hpending, hmsgs⟩⟩
    | handling => exact fails_returning h hpending
  · exact fails_pending h hpending

theorem fails_mqNotify (h : l.pc = .mqNotify) (hmsgs : sh.queue.msgs ≠ []) : Fails sh l := by
  by_cases hreg : sh.registered = true
  · have hend : Fails sh { l with pc := .ended } := fails_ended rfl
    refine Fails.head (c := none) ?_ hend
    simp [reader, h, mqNotify, hreg]
  · have hsleep : Fails { sh with registered := true } { l with pc := .sigsuspend .waiting } :=
      fails_sigsuspend rfl hmsgs
    refine Fails.head (c := none) ?_ hsleep
    simp [reader, h, mqNotify, hreg]

/-- wherever the program is, once there is a message in the queue -/
theorem fails_of_message (hmsgs : sh.queue.msgs ≠ []) (hpc : l.pc ≠ .mqReceive) : Fails sh l := by
  cases h : l.pc with
  | mqNotify => exact fails_mqNotify h hmsgs
  | sigsuspend ph => exact fails_sigsuspend h hmsgs
  | mqNotifyAgain => exact fails_mqNotifyAgain h
  | setSingleNotify => exact fails_setSingleNotify h
  | errExit => exact fails_errExit h
  | mqReceive => exact absurd h hpc
  | ended => exact fails_ended h

/-- the program's own steps send nothing -/
theorem alone_reader {x x' : Shared} {m m' : Local} (h : Alone prog .reader x m tr x' m') : tr = [] := by
  induction h with
  | refl => rfl
  | head hs _ ih =>
    obtain ⟨_, -, he⟩ := Option.map_eq_some_iff.1 hs
    cases he
    exact ih

/-- **No sleep over a message.** For every queue at the start and every run: the program's own steps from the state that
is reached lead neither to its end nor to a state in which it sleeps over a message, if and only if the queue was empty
at the start and no message has arrived. -/
theorem awake_iff (h : Run prog (start queue) as tr s) :
    (∀ tr' sh l, Alone prog .reader s.sh (s.loc .reader) tr' sh l → Awake sh l) ↔ queue.msgs = [] ∧ tr = [] := by
  obtain ⟨hqueue, hpc⟩ := never_reads h
  constructor
  · intro hawake
    by_contra hsome
    have hmsgs : s.sh.queue.msgs ≠ [] := by
      rw [hqueue, ne_eq, List.append_eq_nil_iff]
      exact hsome
    obtain ⟨sh, l, halone, hfails⟩ := fails_of_message hmsgs hpc
    exact hfails (hawake _ _ _ halone)
  · rintro ⟨hempty, rfl⟩ tr' sh l halone
    obtain rfl := alone_reader halone
    obtain ⟨bs, hrun⟩ := halone.run
    have hall := h.append hrun
    have hquiet := quiet_run hall
    have hmsgs := (never_reads hall).1
    rw [hempty, List.append_nil, List.append_nil] at hmsgs
    refine ⟨fun hend => ?_, fun hsleep => hsleep.2.2 hmsgs⟩
    have hpc' := hquiet.pc
    rw [St.move_loc, Function.update_self, hend] at hpc'
    rcases hpc' with ⟨hpc', -⟩ | hpc' <;> cases hpc'

/-- a queue for one message of one byte -/
def small : Queue Byte := ⟨⟨1, 1, Nat.one_pos, Nat.one_pos⟩, []⟩

/-- the program waits for messages -/
theorem awake_iff_small : Awake ⟨small, true, ∅⟩ ⟨.sigsuspend .waiting, false⟩ := by
  have hstep : prog .reader (none, []) (start small).sh ((start small).loc .reader) =
      some (⟨small, true, ∅⟩, ⟨.sigsuspend .waiting, false⟩, []) := rfl
  exact (awake_iff (Run.single hstep)).2 ⟨rfl, rfl⟩ [] _ _ (.refl _ _)

/-- a message arrives after the registration: the program ends -/
theorem not_awake :
    ¬ ∀ (queue : Queue Byte) as tr s, Run prog (start queue) as tr s → Awake s.sh (s.loc .reader) := by
  intro h
  obtain ⟨s, tr, hrun, hend⟩ := exec_any_run prog (start small)
    [(.reader, (none, [])), (.sender, (none, [7])), (.reader, (some .NOTIFY_SIG, [])), (.reader, (none, [])),
      (.reader, (none, [])), (.reader, (none, [])), (.reader, (none, []))]
    (fun s _ => (s.loc .reader).pc = .ended) (by decide)
  exact (h small _ _ _ hrun).1 hend

end OsPractice.MqNotifySig
