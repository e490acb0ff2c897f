/-
Two users exchange messages (`POSIX-mqueue/msg_exchange.c`). Each starts the program with the two names, its own first.
The program opens a queue for each direction and forks: the parent sends what it reads from its standard input, and the
child displays what it receives.

Each library or system call is one step; `snprintf` only makes the names. `fork` leaves an image of the memory, which
the child starts from. `malloc` returns whatever bytes the environment chooses. SIGINT and errors are not modelled,
except those of the size of a message. Descriptors are the names of the queues they were opened with.

Results:
- `parent_step`, `child_step`: a step keeps the account of the texts that have been read, are in transit and have been
  displayed (`Inv`);
- `exchange`: the texts that one user is shown are what the other has typed, in order, without loss or duplication.
-/
import OsPractice.Core.Interleave
import OsPractice.Core.Bytes
import OsPractice.Core.Lines
import OsPractice.Core.MessageQueue

namespace OsPractice.MsgExchange

open Interleave Bytes MessageQueue

/-! ## The program -/

/-- the two runs of the program -/
inductive Peer where
  | first
  | second
  deriving DecidableEq, Repr

def Peer.other : Peer → Peer
  | .first => .second
  | .second => .first

@[simp] theorem Peer.other_other (p : Peer) : p.other.other = p := by cases p <;> rfl

@[simp] theorem Peer.other_ne (p : Peer) : p.other ≠ p := by cases p <;> decide

inductive Proc where
  | parent (p : Peer)
  | child (p : Peer)
  deriving DecidableEq, Repr

/-- `snprintf(buf, 100, "/%s_to_%s", src, dst)` -/
def queueName (src dst : List Byte) : List Byte := ([47] ++ src ++ [95, 116, 111, 95] ++ dst).take 99

/-- `'\n'` -/
def newline : Byte := 10

/-- the memory of a process -/
structure Mem where
  /-- `attr.mq_msgsize` -/
  msgsize : ℕ
  inMsg : List Byte
  outMsg : List Byte
  deriving DecidableEq, Repr

structure Shared where
  queues : Store (List Byte) Byte
  /-- the memory of the peers as `fork` has copied it -/
  image : Peer → Option Mem
  /-- what is left of the standard inputs -/
  stdin : Peer → List Byte

inductive Pc where
  -- before `fork`, and the parent after it
  | openMqd1
  | openMqd2
  | getattr
  | mallocIn
  | mallocOut
  | fork
  | closeMqd2
  | fgets
  | send
  -- the child
  | unborn
  | closeMqd1
  | receive
  | display
  -- ended by `errExit`
  | ended
  deriving DecidableEq, Repr

structure Local where
  pc : Pc
  mem : Mem
  deriving DecidableEq, Repr

inductive Event where
  /-- `fgets` of peer `p` has returned this text -/
  | consumed (p : Peer) (text : List Byte)
  | displayed (p : Peer) (text : List Byte)
  deriving DecidableEq, Repr

section

variable (user : Peer → List Byte) (create : List Byte → Attr)

/-- peer `p` is started with its own name first -/
def q1_name (p : Peer) : List Byte := queueName (user p) (user p.other)

def q2_name (p : Peer) : List Byte := queueName (user p.other) (user p)

/-- the choice is what `malloc` returns -/
def prog : Prog Proc (List Byte) Shared Local Event := fun t c sh l =>
  match t, l.pc with
  | .parent p, .openMqd1 =>
    some ({ sh with queues := openCreate create (q1_name user p) sh.queues }, { l with pc := .openMqd2 }, [])
  | .parent p, .openMqd2 =>
    some ({ sh with queues := openCreate create (q2_name user p) sh.queues }, { l with pc := .getattr }, [])
  | .parent p, .getattr => (sh.queues (q1_name user p)).map fun q =>
      (sh, ⟨.mallocIn, { l.mem with msgsize := q.attr.msgsize }⟩, [])
  | .parent _, .mallocIn =>
    if c.length = l.mem.msgsize then some (sh, ⟨.mallocOut, { l.mem with inMsg := c }⟩, []) else none
  | .parent _, .mallocOut =>
    if c.length = l.mem.msgsize then some (sh, ⟨.fork, { l.mem with outMsg := c }⟩, []) else none
  | .parent p, .fork =>
    some ({ sh with image := Function.update sh.image p (some l.mem) }, { l with pc := .closeMqd2 }, [])
  | .parent _, .closeMqd2 => some (sh, { l with pc := .fgets }, [])
  | .parent p, .fgets =>
    match Lines.fgets newline l.mem.msgsize (sh.stdin p) with
    | none => some (sh, { l with pc := .ended }, [])
    | some (text, rest) => some ({ sh with stdin := Function.update sh.stdin p rest },
        ⟨.send, { l.mem with outMsg := fill l.mem.outMsg (text ++ [0]) }⟩, [.consumed p text])
  | .parent p, .send => (sh.queues (q1_name user p)).bind fun q =>
    match MessageQueue.send (l.mem.outMsg.take l.mem.msgsize) q with
    | .blocked => none
    | .failed => some (sh, { l with pc := .ended }, [])
    | .done q => some ({ sh with queues := Function.update sh.queues (q1_name user p) (some q) },
        { l with pc := .fgets }, [])
  | .child p, .unborn => (sh.image p).map fun mem => (sh, ⟨.closeMqd1, mem⟩, [])
  | .child _, .closeMqd1 => some (sh, { l with pc := .receive }, [])
  | .child p, .receive => (sh.queues (q2_name user p)).bind fun q =>
    match MessageQueue.receive l.mem.msgsize q with
    | .blocked => none
    | .failed => some (sh, { l with pc := .ended }, [])
    | .done (q, msg) => some ({ sh with queues := Function.update sh.queues (q2_name user p) (some q) },
        ⟨.display, { l.mem with inMsg := fill l.mem.inMsg msg }⟩, [])
  | .child p, .display => some (sh, { l with pc := .receive }, [.displayed p (cstring l.mem.inMsg)])
  | _, _ => none

end

abbrev Global := St Proc Shared Local

/-- two peers with their standard inputs, and no queues -/
def start (input : Peer → List Byte) : Global where
  sh := ⟨fun _ => none, fun _ => none, input⟩
  loc
    | .parent _ => ⟨.openMqd1, ⟨0, [], []⟩⟩
    | .child _ => ⟨.unborn, ⟨0, [], []⟩⟩

/-! ## What has happened -/

def readBy (p : Peer) : Event → Option (List Byte)
  | .consumed q text => if q = p then some text else none
  | .displayed _ _ => none

def shownTo (p : Peer) : Event → Option (List Byte)
  | .consumed _ _ => none
  | .displayed q text => if q = p then some text else none

/-- the texts that peer `p` has read from its standard input -/
def reads (p : Peer) (tr : List Event) : List (List Byte) := tr.filterMap (readBy p)

/-- the texts that peer `p` has displayed -/
def texts (p : Peer) (tr : List Event) : List (List Byte) := tr.filterMap (shownTo p)

@[simp] theorem reads_append (p : Peer) (tr es : List Event) : reads p (tr ++ es) = reads p tr ++ reads p es :=
  List.filterMap_append

@[simp] theorem texts_append (p : Peer) (tr es : List Event) : texts p (tr ++ es) = texts p tr ++ texts p es :=
  List.filterMap_append

/-! ## The account of the texts -/

/-- the text that a parent has read and not sent -/
def pending (l : Local) : List (List Byte) := if l.pc = .send then [cstring l.mem.outMsg] else []

/-- the text that a child has received and not displayed -/
def inHand (l : Local) : List (List Byte) := if l.pc = .display then [cstring l.mem.inMsg] else []

section

variable (user : Peer → List Byte) (create : List Byte → Attr)

/-- the texts in the queue from peer `p` -/
def queued (sh : Shared) (p : Peer) : List (List Byte) := (contents sh.queues (q1_name user p)).map cstring

/-- both queues have been opened -/
def Opened (sh : Shared) : Prop := ∀ p, (sh.queues (q1_name user p)).isSome

/-- where the parent of peer `p` is; the messages have `m` bytes -/
inductive Parent (m : ℕ) (sh : Shared) (p : Peer) (l : Local) : Prop where
  | openMqd1 (hpc : l.pc = .openMqd1)
  | openMqd2 (hpc : l.pc = .openMqd2) (hq : (sh.queues (q1_name user p)).isSome)
  | getattr (hpc : l.pc = .getattr) (ho : Opened user sh)
  | mallocIn (hpc : l.pc = .mallocIn) (ho : Opened user sh) (hm : l.mem.msgsize = m)
  | mallocOut (hpc : l.pc = .mallocOut) (ho : Opened user sh) (hm : l.mem.msgsize = m) (hin : l.mem.inMsg.length = m)
  | fork (hpc : l.pc = .fork) (ho : Opened user sh) (hm : l.mem.msgsize = m) (hin : l.mem.inMsg.length = m)
      (hout : l.mem.outMsg.length = m)
  | running (hpc : l.pc = .closeMqd2 ∨ l.pc = .fgets ∨ l.pc = .send) (ho : Opened user sh)
      (himg : (sh.image p).isSome) (hm : l.mem.msgsize = m) (hout : l.mem.outMsg.length = m)
  | ended (hpc : l.pc = .ended) (himg : (sh.image p).isSome) (hend : sh.stdin p = [])

inductive Child (m : ℕ) (sh : Shared) (p : Peer) (l : Local) : Prop where
  | unborn (hpc : l.pc = .unborn)
  | running (hpc : l.pc = .closeMqd1 ∨ l.pc = .receive ∨ l.pc = .display) (ho : Opened user sh)
      (hm : l.mem.msgsize = m) (hin : l.mem.inMsg.length = m)

/-- a queue with its messages -/
structure QueueOk (m : ℕ) (q : Queue Byte) : Prop where
  size : q.attr.msgsize = m
  length : ∀ msg ∈ q.msgs, msg.length = m

structure ImageOk (m : ℕ) (sh : Shared) (mem : Mem) : Prop where
  opened : Opened user sh
  size : mem.msgsize = m
  length : mem.inMsg.length = m

structure Inv (m : ℕ) (input : Peer → List Byte) (tr : List Event) (s : Global) : Prop where
  parent : ∀ p, Parent user m s.sh p (s.loc (.parent p))
  child : ∀ p, Child user m s.sh p (s.loc (.child p))
  queue : ∀ p q, s.sh.queues (q1_name user p) = some q → QueueOk m q
  image : ∀ p mem, s.sh.image p = some mem → ImageOk user m s.sh mem
  /-- every text that has been read is displayed, in the hands of a process or in the queue -/
  stream : ∀ p, reads p tr = texts p.other tr ++ inHand (s.loc (.child p.other)) ++ queued user s.sh p ++
    pending (s.loc (.parent p))
  consumed : ∀ p, (reads p tr).flatten ++ s.sh.stdin p = input p

end

section

variable {user : Peer → List Byte} {create : List Byte → Attr} {m : ℕ} {input : Peer → List Byte}

theorem q2_name_eq (user : Peer → List Byte) (p : Peer) : q2_name user p = q1_name user p.other := by
  rw [q1_name, q2_name, Peer.other_other]

theorem Peer.eq_other {p q : Peer} (h : q ≠ p) : q = p.other := by
  cases p <;> cases q <;> first | rfl | exact absurd rfl h

/-- queues are never removed -/
def Grows (sh sh' : Shared) : Prop := ∀ n, (sh.queues n).isSome → (sh'.queues n).isSome

theorem Grows.opened {sh sh' : Shared} (h : Grows sh sh') (ho : Opened user sh) : Opened user sh' :=
  fun p => h _ (ho p)

theorem Grows.parent {sh sh' : Shared} {p : Peer} {l : Local} (h : Grows sh sh') (himg : sh'.image p = sh.image p)
    (hstdin : sh'.stdin p = sh.stdin p) (hp : Parent user m sh p l) : Parent user m sh' p l := by
  cases hp with
  | openMqd1 hpc => exact .openMqd1 hpc
  | openMqd2 hpc hq => exact .openMqd2 hpc (h _ hq)
  | getattr hpc ho => exact .getattr hpc (h.opened ho)
  | mallocIn hpc ho hm => exact .mallocIn hpc (h.opened ho) hm
  | mallocOut hpc ho hm hin => exact .mallocOut hpc (h.opened ho) hm hin
  | fork hpc ho hm hin hout => exact .fork hpc (h.opened ho) hm hin hout
  | running hpc ho hi hm hout => exact .running hpc (h.opened ho) (himg ▸ hi) hm hout
  | ended hpc hi hend => exact .ended hpc (himg ▸ hi) (hstdin.trans hend)

theorem Grows.child {sh sh' : Shared} {p : Peer} {l : Local} (h : Grows sh sh') (hc : Child user m sh p l) :
    Child user m sh' p l := by
  cases hc with
  | unborn hpc => exact .unborn hpc
  | running hpc ho hm hin => exact .running hpc (h.opened ho) hm hin

theorem Grows.image {sh sh' : Shared} {mem : Mem} (h : Grows sh sh') (hi : ImageOk user m sh mem) :
    ImageOk user m sh' mem := ⟨h.opened hi.opened, hi.size, hi.length⟩

/-- the account after a step of the parent of peer `p` -/
theorem Inv.move_parent {tr es : List Event} {s : Global} {p : Peer} {sh : Shared} {l : Local}
    (h : Inv user m input tr s) (hgrow : Grows s.sh sh) (hparent : Parent user m sh p l)
    (hqueue : ∀ r q, sh.queues (q1_name user r) = some q → QueueOk m q)
    (himg : ∀ r, r ≠ p → sh.image r = s.sh.image r) (himgp : ∀ mem, sh.image p = some mem → ImageOk user m sh mem)
    (hstdin : ∀ r, r ≠ p → sh.stdin r = s.sh.stdin r) (hreads : ∀ r, r ≠ p → reads r es = [])
    (htexts : ∀ r, texts r es = []) (hqueued : ∀ r, r ≠ p → queued user sh r = queued user s.sh r)
    (hstream : queued user s.sh p ++ pending (s.loc (.parent p)) ++ reads p es = queued user sh p ++ pending l)
    (hconsumed : (reads p es).flatten ++ sh.stdin p = s.sh.stdin p) :
    Inv user m input (tr ++ es) (s.move (.parent p) sh l) := by
  have hchild : ∀ r, (s.move (.parent p) sh l).loc (.child r) = s.loc (.child r) := fun r => by simp
  have hother : ∀ r, r ≠ p → (s.move (.parent p) sh l).loc (.parent r) = s.loc (.parent r) := fun r hr => by
    simp [Function.update_of_ne, hr]
  have hself : (s.move (.parent p) sh l).loc (.parent p) = l := by simp
  refine ⟨fun r => ?_, fun r => ?_, hqueue, fun r mem hr => ?_, fun r => ?_, fun r => ?_⟩
  · by_cases hr : r = p
    · subst hr
      rw [hself]
      exact hparent
    · rw [hother r hr]
      exact hgrow.parent (himg r hr) (hstdin r hr) (h.parent r)
  · rw [hchild]
    exact hgrow.child (h.child r)
  · by_cases hrp : r = p
    · subst hrp
      exact himgp mem hr
    · rw [St.move_sh, himg r hrp] at hr
      exact hgrow.image (h.image r mem hr)
  · rw [hchild, texts_append, htexts, List.append_nil, reads_append, h.stream r, St.move_sh]
    by_cases hr : r = p
    · subst hr
      rw [hself, List.append_assoc _ (queued user sh r), ← hstream]
      simp only [List.append_assoc]
    · rw [hother r hr, hreads r hr, hqueued r hr, List.append_nil]
  · rw [reads_append, List.flatten_append, List.append_assoc, St.move_sh]
    by_cases hr : r = p
    · subst hr
      rw [hconsumed]
      exact h.consumed r
    · rw [hreads r hr, hstdin r hr]
      exact h.consumed r

/-- the account after a step of the child of peer `p` -/
theorem Inv.move_child {tr es : List Event} {s : Global} {p : Peer} {sh : Shared} {l : Local}
    (h : Inv user m input tr s) (hgrow : Grows s.sh sh) (hchild : Child user m sh p l)
    (hqueue : ∀ r q, sh.queues (q1_name user r) = some q → QueueOk m q) (himg : sh.image = s.sh.image)
    (hstdin : sh.stdin = s.sh.stdin) (hreads : ∀ r, reads r es = []) (htexts : ∀ r, r ≠ p → texts r es = [])
    (hqueued : ∀ r, r ≠ p.other → queued user sh r = queued user s.sh r)
    (hstream : inHand (s.loc (.child p)) ++ queued user s.sh p.other =
      texts p es ++ inHand l ++ queued user sh p.other) :
    Inv user m input (tr ++ es) (s.move (.child p) sh l) := by
  have hparent : ∀ r, (s.move (.child p) sh l).loc (.parent r) = s.loc (.parent r) := fun r => by simp
  have hother : ∀ r, r ≠ p → (s.move (.child p) sh l).loc (.child r) = s.loc (.child r) := fun r hr => by
    simp [Function.update_of_ne, hr]
  have hself : (s.move (.child p) sh l).loc (.child p) = l := by simp
  refine ⟨fun r => ?_, fun r => ?_, hqueue, fun r mem hr => ?_, fun r => ?_, fun r => ?_⟩
  · rw [hparent]
    exact hgrow.parent (by rw [himg]) (by rw [hstdin]) (h.parent r)
  · by_cases hr : r = p
    · subst hr
      rw [hself]
      exact hchild
    · rw [hother r hr]
      exact hgrow.child (h.child r)
  · rw [St.move_sh, himg] at hr
    exact hgrow.image (h.image r mem hr)
  · rw [hparent, reads_append, hreads, List.append_nil, h.stream r, St.move_sh, texts_append]
    by_cases hr : r = p.other
    · subst hr
      rw [Peer.other_other, hself, List.append_assoc (texts p tr), hstream]
      simp only [List.append_assoc]
    · have hrp : r.other ≠ p := by
        rintro rfl
        exact hr (Peer.other_other r).symm
      rw [hother _ hrp, htexts _ hrp, hqueued r hr, List.append_nil]
  · rw [reads_append, hreads, List.append_nil, St.move_sh, hstdin]
    exact h.consumed r

/-- the account after a step of a parent that does not touch anything shared -/
theorem Inv.quiet_parent {tr : List Event} {s : Global} {p : Peer} {l : Local} (h : Inv user m input tr s)
    (hparent : Parent user m s.sh p l) (hpend : pending l = pending (s.loc (.parent p))) :
    Inv user m input (tr ++ []) (s.move (.parent p) s.sh l) := by
  refine h.move_parent (fun _ hn => hn) hparent h.queue (fun _ _ => rfl) (h.image p) (fun _ _ => rfl) (fun _ _ => rfl)
    (fun _ => rfl) (fun _ _ => rfl) ?_ rfl
  rw [hpend]
  exact List.append_nil _

theorem Inv.quiet_child {tr : List Event} {s : Global} {p : Peer} {l : Local} (h : Inv user m input tr s)
    (hchild : Child user m s.sh p l) (hhand : inHand l = inHand (s.loc (.child p))) :
    Inv user m input (tr ++ []) (s.move (.child p) s.sh l) := by
  refine h.move_child (fun _ hn => hn) hchild h.queue rfl rfl (fun _ => rfl) (fun _ _ => rfl) (fun _ _ => rfl) ?_
  rw [hhand]
  rfl

/-- what the peers have been promised: two queues for messages of the same size, and texts without NUL -/
structure Setup (user : Peer → List Byte) (create : List Byte → Attr) (m : ℕ) (input : Peer → List Byte) : Prop where
  names : ∀ p, q1_name user p.other ≠ q1_name user p
  size : ∀ p, (create (q1_name user p)).msgsize = m
  nul : ∀ p, 0 ∉ input p

theorem Inv.open_queue {tr : List Event} {s : Global} {p r : Peer} {l : Local} (h : Inv user m input tr s)
    (hset : Setup user create m input)
    (hparent : Parent user m { s.sh with queues := openCreate create (q1_name user r) s.sh.queues } p l)
    (hpend : pending l = pending (s.loc (.parent p))) :
    Inv user m input (tr ++ [])
      (s.move (.parent p) { s.sh with queues := openCreate create (q1_name user r) s.sh.queues } l) := by
  have hqueued : ∀ q, queued user { s.sh with queues := openCreate create (q1_name user r) s.sh.queues } q =
      queued user s.sh q := fun q => by rw [queued, queued, contents_openCreate]
  have hgrow : Grows s.sh { s.sh with queues := openCreate create (q1_name user r) s.sh.queues } :=
    fun _ hn => openCreate_mono hn
  refine h.move_parent hgrow hparent ?_ (fun _ _ => rfl) (fun mem hmem => hgrow.image (h.image p mem hmem))
    (fun _ _ => rfl) (fun _ _ => rfl) (fun _ => rfl) (fun q _ => hqueued q) ?_ rfl
  · intro q queue hq
    simp only [openCreate_eq] at hq
    split_ifs at hq with hnew
    · cases hq
      refine ⟨?_, by simp⟩
      rw [← hset.size r]
    · exact h.queue q queue hq
  · rw [hqueued, hpend]
    exact List.append_nil _

/-- one of the two queues gets other messages -/
theorem queued_update (hset : Setup user create m input) (sh : Shared) (p : Peer) (queue : Queue Byte) :
    queued user { sh with queues := Function.update sh.queues (q1_name user p) (some queue) } p =
        queue.msgs.map cstring ∧
      ∀ r, r ≠ p → queued user { sh with queues := Function.update sh.queues (q1_name user p) (some queue) } r =
        queued user sh r := by
  refine ⟨by simp [queued, contents], fun r hr => ?_⟩
  have hname : q1_name user r ≠ q1_name user p := Peer.eq_other hr ▸ hset.names p
  simp only [queued, contents, Function.update_of_ne hname]

theorem queueOk_update {sh : Shared} {p : Peer} {queue : Queue Byte}
    (h : ∀ r q, sh.queues (q1_name user r) = some q → QueueOk m q) (hq : QueueOk m queue) (r : Peer) (q : Queue Byte)
    (he : Function.update sh.queues (q1_name user p) (some queue) (q1_name user r) = some q) : QueueOk m q := by
  by_cases hr : q1_name user r = q1_name user p
  · rw [hr, Function.update_self, Option.some_inj] at he
    exact he ▸ hq
  · rw [Function.update_of_ne hr] at he
    exact h r q he

theorem grows_update (sh : Shared) (n : List Byte) (queue : Queue Byte) :
    Grows sh { sh with queues := Function.update sh.queues n (some queue) } := by
  intro k hk
  by_cases hkn : k = n
  · subst hkn
    simp
  · simpa [Function.update_of_ne hkn] using hk

/-! ## The parent -/

theorem Inv.fork {tr : List Event} {s : Global} {p : Peer} {mem : Mem} (h : Inv user m input tr s)
    (ho : Opened user s.sh) (hm : mem.msgsize = m) (hin : mem.inMsg.length = m) (hout : mem.outMsg.length = m)
    (hpend : pending (s.loc (.parent p)) = []) :
    Inv user m input (tr ++ [])
      (s.move (.parent p) { s.sh with image := Function.update s.sh.image p (some mem) } ⟨.closeMqd2, mem⟩) := by
  refine h.move_parent (fun _ hn => hn) (.running (.inl rfl) ho (by simp) hm hout) h.queue
    (fun r hr => Function.update_of_ne hr _ _) ?_ (fun _ _ => rfl) (fun _ _ => rfl) (fun _ => rfl) (fun _ _ => rfl)
    ?_ rfl
  · intro mem' hmem
    obtain rfl : mem = mem' := by simpa using hmem
    exact ⟨ho, hm, hin⟩
  · rw [hpend]
    simp [pending, queued, reads]

theorem Inv.fgets {tr : List Event} {s : Global} {p : Peer} {mem : Mem} {text rest : List Byte}
    (h : Inv user m input tr s) (hset : Setup user create m input) (ho : Opened user s.sh)
    (himg : (s.sh.image p).isSome) (hm : mem.msgsize = m) (hout : mem.outMsg.length = m)
    (hpend : pending (s.loc (.parent p)) = []) (hget : Lines.fgets newline m (s.sh.stdin p) = some (text, rest)) :
    Inv user m input (tr ++ [.consumed p text])
      (s.move (.parent p) { s.sh with stdin := Function.update s.sh.stdin p rest }
        ⟨.send, { mem with outMsg := fill mem.outMsg (text ++ [0]) }⟩) := by
  obtain ⟨happ, hlen⟩ := Lines.fgets_some hget
  have hnul : 0 ∉ text := by
    intro h0
    refine hset.nul p ?_
    rw [← h.consumed p, ← happ]
    exact List.mem_append_right _ (List.mem_append_left _ h0)
  have hfill : (fill mem.outMsg (text ++ [0])).length = m := by
    rw [← hout]
    refine fill_length ?_
    rw [hout, List.length_append]
    exact hlen
  have hone : reads p [.consumed p text] = [text] := by simp [reads, readBy]
  have hgrow : Grows s.sh { s.sh with stdin := Function.update s.sh.stdin p rest } := fun _ hn => hn
  refine h.move_parent hgrow (.running (.inr (.inr rfl)) ho himg hm hfill) h.queue (fun _ _ => rfl)
    (fun mem' hmem => hgrow.image (h.image p mem' hmem)) (fun r hr => Function.update_of_ne hr _ _) ?_ (fun _ => rfl)
    (fun _ _ => rfl) ?_ ?_
  · intro r hr
    simp [reads, readBy, hr.symm]
  · have htext : cstring (fill mem.outMsg (text ++ [0])) = text := by
      rw [fill, List.append_assoc]
      exact cstring_append hnul _
    have hsend : pending ⟨.send, { mem with outMsg := fill mem.outMsg (text ++ [0]) }⟩ = [text] :=
      (if_pos rfl).trans (congrArg (fun t => [t]) htext)
    rw [hpend, hone, hsend, List.append_nil]
    rfl
  · rw [hone]
    simpa using happ

theorem Inv.send {tr : List Event} {s : Global} {p : Peer} {mem : Mem} {queue : Queue Byte} (h : Inv user m input tr s)
    (hset : Setup user create m input) (ho : Opened user s.sh) (himg : (s.sh.image p).isSome) (hm : mem.msgsize = m)
    (hout : mem.outMsg.length = m) (hloc : s.loc (.parent p) = ⟨.send, mem⟩)
    (hq : s.sh.queues (q1_name user p) = some queue) :
    Inv user m input (tr ++ []) (s.move (.parent p)
      { s.sh with
        queues := Function.update s.sh.queues (q1_name user p)
          (some { queue with msgs := queue.msgs ++ [mem.outMsg] }) }
      ⟨.fgets, mem⟩) := by
  have hok := h.queue p queue hq
  obtain ⟨hself, hother⟩ := queued_update hset s.sh p { queue with msgs := queue.msgs ++ [mem.outMsg] }
  have hgrow := grows_update s.sh (q1_name user p) { queue with msgs := queue.msgs ++ [mem.outMsg] }
  refine h.move_parent hgrow (.running (.inr (.inl rfl)) (hgrow.opened ho) himg hm hout) ?_ (fun _ _ => rfl)
    (fun mem' hmem => hgrow.image (h.image p mem' hmem)) (fun _ _ => rfl) (fun _ _ => rfl) (fun _ => rfl) hother ?_ rfl
  · refine queueOk_update h.queue ⟨hok.size, ?_⟩
    intro msg hmsg
    rcases List.mem_append.1 hmsg with hmsg | hmsg
    · exact hok.length msg hmsg
    · rw [List.mem_singleton.1 hmsg, hout]
  · rw [hself, hloc]
    simp [queued, contents_of_eq hq, pending, reads]

theorem pending_eq_nil {l : Local} (h : l.pc ≠ .send) : pending l = [] := if_neg h

theorem inHand_eq_nil {l : Local} (h : l.pc ≠ .display) : inHand l = [] := if_neg h

theorem parent_step {tr es : List Event} {s : Global} {p : Peer} {c : List Byte} {sh : Shared} {l : Local}
    (h : Inv user m input tr s) (hset : Setup user create m input)
    (hs : prog user create (.parent p) c s.sh (s.loc (.parent p)) = some (sh, l, es)) :
    Inv user m input (tr ++ es) (s.move (.parent p) sh l) := by
  have hpar := h.parent p
  generalize hloc : s.loc (.parent p) = l₀ at hs hpar
  obtain ⟨pc, mem⟩ := l₀
  have hpend : pc ≠ .send → pending (s.loc (.parent p)) = [] := fun hne => hloc ▸ pending_eq_nil hne
  have hpos : 0 < m := by
    rw [← hset.size p]
    exact (create _).msgsize_pos
  cases hpar with
  | openMqd1 hpc =>
    simp only at hpc
    subst hpc
    cases hs
    exact h.open_queue hset (.openMqd2 rfl (openCreate_isSome create _ _)) (hpend (by decide)).symm
  | openMqd2 hpc hq =>
    simp only at hpc
    subst hpc
    simp only [prog, q2_name_eq] at hs
    cases hs
    refine h.open_queue hset (.getattr rfl fun r => ?_) (hpend (by decide)).symm
    by_cases hr : r = p
    · subst hr
      exact openCreate_mono hq
    · rw [Peer.eq_other hr]
      exact openCreate_isSome create _ _
  | getattr hpc ho =>
    simp only at hpc
    subst hpc
    obtain ⟨queue, hq, he⟩ := Option.map_eq_some_iff.1 hs
    cases he
    exact h.quiet_parent (.mallocIn rfl ho (h.queue p queue hq).size) (hpend (by decide)).symm
  | mallocIn hpc ho hm =>
    simp only at hpc hm
    subst hpc
    simp only [prog] at hs
    split_ifs at hs with hc
    cases hs
    exact h.quiet_parent (.mallocOut rfl ho hm (hc.trans hm)) (hpend (by decide)).symm
  | mallocOut hpc ho hm hin =>
    simp only at hpc hm hin
    subst hpc
    simp only [prog] at hs
    split_ifs at hs with hc
    cases hs
    exact h.quiet_parent (.fork rfl ho hm hin (hc.trans hm)) (hpend (by decide)).symm
  | fork hpc ho hm hin hout =>
    simp only at hpc hm hin hout
    subst hpc
    cases hs
    exact h.fork ho hm hin hout (hpend (by decide))
  | running hpc ho himg hm hout =>
    simp only at hpc hm hout
    rcases hpc with rfl | rfl | rfl
    · cases hs
      exact h.quiet_parent (.running (.inr (.inl rfl)) ho himg hm hout) (hpend (by decide)).symm
    · simp only [prog] at hs
      split at hs
      · rename_i hget
        rw [hm] at hget
        cases hs
        exact h.quiet_parent (.ended rfl himg (Lines.fgets_none hpos hget)) (hpend (by decide)).symm
      · rename_i text rest hget
        rw [hm] at hget
        cases hs
        exact h.fgets hset ho himg hm hout (hpend (by decide)) hget
    · obtain ⟨queue, hq, he⟩ := Option.bind_eq_some_iff.1 hs
      have htake : mem.outMsg.take mem.msgsize = mem.outMsg := List.take_of_length_le (by rw [hm, hout])
      have hsize : mem.outMsg.length = queue.attr.msgsize := by rw [hout, (h.queue p queue hq).size]
      simp only [htake, send_eq hsize] at he
      split_ifs at he with hfull
      cases he
      exact h.send hset ho himg hm hout hloc hq
  | ended hpc =>
    simp only at hpc
    subst hpc
    cases hs

/-! ## The child -/

theorem Inv.receive {tr : List Event} {s : Global} {p : Peer} {mem : Mem} {queue : Queue Byte} {msg : List Byte}
    {msgs : List (List Byte)} (h : Inv user m input tr s) (hset : Setup user create m input) (ho : Opened user s.sh)
    (hm : mem.msgsize = m) (hin : mem.inMsg.length = m) (hloc : s.loc (.child p) = ⟨.receive, mem⟩)
    (hq : s.sh.queues (q1_name user p.other) = some queue) (hmsgs : queue.msgs = msg :: msgs) :
    Inv user m input (tr ++ []) (s.move (.child p)
      { s.sh with queues := Function.update s.sh.queues (q1_name user p.other) (some { queue with msgs := msgs }) }
      ⟨.display, { mem with inMsg := fill mem.inMsg msg }⟩) := by
  have hok := h.queue p.other queue hq
  have hlen : msg.length = m := hok.length msg (by rw [hmsgs]; exact List.mem_cons_self)
  -- the message fills the buffer
  have hfill : fill mem.inMsg msg = msg := by
    rw [fill, List.drop_eq_nil_of_le (by rw [hin, hlen]), List.append_nil]
  obtain ⟨hself, hother⟩ := queued_update hset s.sh p.other { queue with msgs := msgs }
  have hgrow := grows_update s.sh (q1_name user p.other) { queue with msgs := msgs }
  rw [hfill]
  refine h.move_child hgrow (.running (.inr (.inr rfl)) (hgrow.opened ho) hm hlen) ?_ rfl rfl (fun _ => rfl)
    (fun _ _ => rfl) hother ?_
  · refine queueOk_update h.queue ⟨hok.size, fun msg' hmsg => hok.length msg' ?_⟩
    rw [hmsgs]
    exact List.mem_cons_of_mem _ hmsg
  · rw [hself, hloc]
    simp [queued, contents_of_eq hq, hmsgs, inHand, texts]

theorem child_step {tr es : List Event} {s : Global} {p : Peer} {c : List Byte} {sh : Shared} {l : Local}
    (h : Inv user m input tr s) (hset : Setup user create m input)
    (hs : prog user create (.child p) c s.sh (s.loc (.child p)) = some (sh, l, es)) :
    Inv user m input (tr ++ es) (s.move (.child p) sh l) := by
  have hch := h.child p
  generalize hloc : s.loc (.child p) = l₀ at hs hch
  obtain ⟨pc, mem⟩ := l₀
  cases hch with
  | unborn hpc =>
    simp only at hpc
    subst hpc
    obtain ⟨mem', himg, he⟩ := Option.map_eq_some_iff.1 hs
    cases he
    obtain ⟨ho, hm, hin⟩ := h.image p mem' himg
    refine h.quiet_child (.running (.inl rfl) ho hm hin) ?_
    rw [hloc]
    rfl
  | running hpc ho hm hin =>
    simp only at hpc hm hin
    rcases hpc with rfl | rfl | rfl
    · cases hs
      refine h.quiet_child (.running (.inr (.inl rfl)) ho hm hin) ?_
      rw [hloc]
      rfl
    · simp only [prog, q2_name_eq] at hs
      obtain ⟨queue, hq, he⟩ := Option.bind_eq_some_iff.1 hs
      have hok := h.queue p.other queue hq
      rw [receive_eq (hm.trans hok.size.symm)] at he
      cases hmsgs : queue.msgs with
      | nil =>
        rw [hmsgs] at he
        cases he
      | cons msg msgs =>
        rw [hmsgs] at he
        cases he
        exact h.receive hset ho hm hin hloc hq hmsgs
    · cases hs
      have hone : texts p [.displayed p (cstring mem.inMsg)] = [cstring mem.inMsg] := by simp [texts, shownTo]
      refine h.move_child (fun _ hn => hn) (.running (.inr (.inl rfl)) ho hm hin) h.queue rfl rfl (fun _ => rfl) ?_
        (fun _ _ => rfl) ?_
      · intro r hr
        simp [texts, shownTo, hr.symm]
      · rw [hone, hloc]
        rfl

/-! ## The streams -/

theorem run_inv (hset : Setup user create m input) {as : List (Proc × List Byte)} {tr : List Event} {s : Global}
    (h : Run (prog user create) (start input) as tr s) : Inv user m input tr s := by
  refine h.inv_trace (I := Inv user m input) ⟨fun p => .openMqd1 rfl, fun p => .unborn rfl, ?_, ?_, ?_, ?_⟩ ?_
  · intro p q hq
    cases hq
  · intro p mem himg
    cases himg
  · exact fun p => rfl
  · exact fun p => rfl
  · intro tr s t c sh l es hi hs
    cases t with
    | parent p => exact parent_step hi hset hs
    | child p => exact child_step hi hset hs

/-- a parent that cannot go on has forked, and is at the end of its input or waits for room in its queue -/
theorem Inv.parent_stuck {tr : List Event} {s : Global} {p : Peer} (h : Inv user m input tr s)
    (hstuck : ¬ CanStep (prog user create) s (.parent p)) :
    (s.sh.image p).isSome ∧
      (s.sh.stdin p = [] ∧ pending (s.loc (.parent p)) = [] ∨ contents s.sh.queues (q1_name user p) ≠ []) := by
  have hno := not_canStep hstuck
  cases h.parent p with
  | openMqd1 hpc | openMqd2 hpc | fork hpc => simpa [prog, hpc] using hno []
  | getattr hpc ho =>
    obtain ⟨queue, hq⟩ := Option.isSome_iff_exists.1 (ho p)
    simpa [prog, hpc, hq] using hno []
  | mallocIn hpc | mallocOut hpc => simpa [prog, hpc] using hno (List.replicate (s.loc (.parent p)).mem.msgsize 0)
  | running hpc ho himg hm hout =>
    rcases hpc with hpc | hpc | hpc
    · simpa [prog, hpc] using hno []
    · exfalso
      have hget := hno []
      simp only [prog, hpc] at hget
      split at hget <;> cases hget
    · refine ⟨himg, .inr fun hnil => ?_⟩
      obtain ⟨queue, hq⟩ := Option.isSome_iff_exists.1 (ho p)
      have hroom : ¬ queue.attr.maxmsg ≤ queue.msgs.length := by
        rw [contents_of_eq hq] at hnil
        rw [hnil, List.length_nil]
        exact Nat.not_le.2 queue.attr.maxmsg_pos
      have hsize : ((s.loc (.parent p)).mem.outMsg.take (s.loc (.parent p)).mem.msgsize).length =
          queue.attr.msgsize := by
        rw [List.length_take, hm, hout, (h.queue p queue hq).size, Nat.min_self]
      have hsend := hno []
      simp only [prog, hpc, hq, Option.bind_some, send_eq hsize, if_neg hroom] at hsend
      cases hsend
  | ended hpc himg hend => exact ⟨himg, .inl ⟨hend, pending_eq_nil (by rw [hpc]; decide)⟩⟩

/-- a child that cannot go on waits for a message -/
theorem Inv.child_stuck {tr : List Event} {s : Global} {p : Peer} (h : Inv user m input tr s)
    (hstuck : ¬ CanStep (prog user create) s (.child p)) (himg : (s.sh.image p).isSome) :
    inHand (s.loc (.child p)) = [] ∧ contents s.sh.queues (q1_name user p.other) = [] := by
  have hno := not_canStep hstuck
  cases h.child p with
  | unborn hpc =>
    obtain ⟨mem, hmem⟩ := Option.isSome_iff_exists.1 himg
    simpa [prog, hpc, hmem] using hno []
  | running hpc ho hm hin =>
    rcases hpc with hpc | hpc | hpc
    · simpa [prog, hpc] using hno []
    · refine ⟨inHand_eq_nil (by rw [hpc]; decide), ?_⟩
      obtain ⟨queue, hq⟩ := Option.isSome_iff_exists.1 (ho p.other)
      have hsize := hm.trans (h.queue p.other queue hq).size.symm
      rw [contents_of_eq hq]
      cases hmsgs : queue.msgs with
      | nil => rfl
      | cons msg msgs =>
        have hrec := hno []
        simp only [prog, hpc, q2_name_eq, hq, Option.bind_some, receive_eq hsize, hmsgs] at hrec
        cases hrec
    · simpa [prog, hpc] using hno []

end

/-- the texts displayed so far against the inputs -/
structure Exchanged (user : Peer → List Byte) (create : List Byte → Attr) (input : Peer → List Byte) (tr : List Event)
    (s : Global) : Prop where
  /-- the texts that a peer reads make up its input -/
  consumed : ∀ p, (reads p tr).flatten ++ s.sh.stdin p = input p
  /-- each text is displayed as it was read -/
  inOrder : ∀ p, texts p tr <+: reads p.other tr
  ordered : ∀ p, (texts p tr).flatten <+: input p.other
  /-- when nobody can go on everything has been displayed -/
  complete : (∀ t, ¬ CanStep (prog user create) s t) → ∀ p, (texts p tr).flatten = input p.other

/-- **Message streams.** For two different queues of one message size and inputs without NUL, in every run: what one
peer displays is a prefix of what the other has typed, text by text, and all of it in the end. -/
theorem exchange {user : Peer → List Byte} {create : List Byte → Attr} {input : Peer → List Byte}
    (hnames : q1_name user .first ≠ q2_name user .first)
    (hsize : (create (q1_name user .first)).msgsize = (create (q2_name user .first)).msgsize)
    (hnul : ∀ p, 0 ∉ input p) {as : List (Proc × List Byte)} {tr : List Event} {s : Global}
    (h : Run (prog user create) (start input) as tr s) : Exchanged user create input tr s := by
  have hset : Setup user create (create (q1_name user .first)).msgsize input := by
    refine ⟨fun p => ?_, fun p => ?_, hnul⟩
    · cases p with
      | first => exact hnames.symm
      | second => exact hnames
    · cases p with
      | first => rfl
      | second => exact hsize.symm
  have hinv := run_inv hset h
  have horder : ∀ p, texts p tr <+: reads p.other tr := by
    intro p
    have hs := hinv.stream p.other
    rw [Peer.other_other] at hs
    exact ⟨_, by rw [hs, List.append_assoc, List.append_assoc]⟩
  refine ⟨hinv.consumed, horder, fun p => ?_, fun hstuck p => ?_⟩
  · obtain ⟨more, hmore⟩ := horder p
    refine ⟨more.flatten ++ s.sh.stdin p.other, ?_⟩
    calc (texts p tr).flatten ++ (more.flatten ++ s.sh.stdin p.other)
      _ = (reads p.other tr).flatten ++ s.sh.stdin p.other := by
        rw [← hmore, List.flatten_append, List.append_assoc]
      _ = input p.other := hinv.consumed p.other
  · have hparent := fun q => hinv.parent_stuck (hstuck (.parent q))
    obtain ⟨hhand, hempty⟩ := hinv.child_stuck (hstuck (.child p)) (hparent p).1
    obtain ⟨-, ⟨hend, hpend⟩ | hne⟩ := hparent p.other
    · have hs := hinv.stream p.other
      rw [Peer.other_other, hhand, hpend, queued, hempty] at hs
      calc (texts p tr).flatten = (reads p.other tr).flatten := by simp [hs]
        _ = (reads p.other tr).flatten ++ s.sh.stdin p.other := by rw [hend, List.append_nil]
        _ = input p.other := hinv.consumed p.other
    · exact absurd hempty hne

/-- a line of four bytes in messages of three, to a peer that types nothing -/
theorem exchange_split : ∃ user create input as tr s, Run (prog user create) (start input) as tr s ∧
    input .first = [97, 98, 99, 10] ∧ texts .second tr = [[97, 98], [99, 10]] ∧ Exchanged user create input tr s := by
  let user : Peer → List Byte := fun | .first => [97] | .second => [98]
  let create : List Byte → Attr := fun _ => ⟨10, 3, by decide, by decide⟩
  let input : Peer → List Byte := fun | .first => [97, 98, 99, 10] | .second => []
  obtain ⟨s, tr, h, htexts⟩ := exec_any_run (prog user create) (start input)
    [(.parent .first, []), (.parent .first, []), (.parent .first, []), (.parent .first, [1, 1, 1]),
      (.parent .first, [1, 1, 1]), (.parent .first, []), (.parent .first, []), (.parent .first, []),
      (.parent .first, []), (.parent .first, []), (.parent .first, []), (.parent .second, []),
      (.parent .second, []), (.parent .second, []), (.parent .second, [1, 1, 1]), (.parent .second, [1, 1, 1]),
      (.parent .second, []), (.child .second, []), (.child .second, []), (.child .second, []),
      (.child .second, []), (.child .second, []), (.child .second, [])]
    (fun _ tr => texts .second tr = [[97, 98], [99, 10]]) (by decide +kernel)
  exact ⟨user, create, input, _, tr, s, h, rfl, htexts, exchange (by decide) rfl (fun p => by cases p <;> decide) h⟩

end OsPractice.MsgExchange
