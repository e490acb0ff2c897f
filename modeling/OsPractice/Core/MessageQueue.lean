/-
POSIX message queues of one priority. Library: nothing here names a program.

A queue holds at most `maxmsg` messages of at most `msgsize` bytes, in the order of the sends. A send waits for room
and a receive for a message; a message that is longer than the queue allows, or a buffer that is shorter, makes the
call fail (EMSGSIZE). Queues are found by name; `openCreate` makes one that is not there.

Results: `send_eq`, `receive_eq`: the calls with messages and buffers of the queue's own size; `contents_openCreate`:
opening a queue does not change what is in it.
-/
import Mathlib.Tactic

namespace OsPractice.MessageQueue

/-- the attributes of a queue; none of them can be zero -/
structure Attr where
  maxmsg : ℕ
  msgsize : ℕ
  maxmsg_pos : 0 < maxmsg
  msgsize_pos : 0 < msgsize

structure Queue (B : Type) where
  attr : Attr
  msgs : List (List B)

/-- what a call comes to -/
inductive Outcome (R : Type) where
  | blocked
  | failed
  | done (r : R)

variable {N B : Type}

def send (msg : List B) (q : Queue B) : Outcome (Queue B) :=
  if q.attr.msgsize < msg.length then .failed
  else if q.attr.maxmsg ≤ q.msgs.length then .blocked
  else .done { q with msgs := q.msgs ++ [msg] }

/-- `len` is the length of the buffer -/
def receive (len : ℕ) (q : Queue B) : Outcome (Queue B × List B) :=
  if len < q.attr.msgsize then .failed
  else match q.msgs with
    | [] => .blocked
    | msg :: msgs => .done ({ q with msgs := msgs }, msg)

theorem send_eq {msg : List B} {q : Queue B} (h : msg.length = q.attr.msgsize) :
    send msg q = if q.attr.maxmsg ≤ q.msgs.length then .blocked else .done { q with msgs := q.msgs ++ [msg] } :=
  if_neg (by omega)

theorem receive_eq {len : ℕ} {q : Queue B} (h : len = q.attr.msgsize) :
    receive len q = match q.msgs with
      | [] => .blocked
      | msg :: msgs => .done ({ q with msgs := msgs }, msg) :=
  if_neg (by omega)

/-! ## Queues by name -/

abbrev Store (N B : Type) := N → Option (Queue B)

/-- the messages in the queue `name` -/
def contents (st : Store N B) (name : N) : List (List B) :=
  match st name with
  | none => []
  | some q => q.msgs

theorem contents_of_eq {st : Store N B} {name : N} {q : Queue B} (h : st name = some q) :
    contents st name = q.msgs := by
  rw [contents, h]

variable [DecidableEq N]

/-- `mq_open(name, O_CREAT)`; a new queue gets the attributes `create name` -/
def openCreate (create : N → Attr) (name : N) (st : Store N B) : Store N B :=
  match st name with
  | none => Function.update st name (some ⟨create name, []⟩)
  | some _ => st

/-- the store after `openCreate` -/
theorem openCreate_eq (create : N → Attr) (name n : N) (st : Store N B) :
    openCreate create name st n = if n = name ∧ st n = none then some ⟨create name, []⟩ else st n := by
  unfold openCreate
  cases hname : st name with
  | none =>
    by_cases hn : n = name
    · subst hn
      simp [hname]
    · simp [hn]
  | some q =>
    rw [if_neg]
    rintro ⟨rfl, hnone⟩
    rw [hnone] at hname
    cases hname

theorem contents_openCreate (create : N → Attr) (name n : N) (st : Store N B) :
    contents (openCreate create name st) n = contents st n := by
  rw [contents, contents, openCreate_eq]
  split_ifs with h
  · rw [h.2]
  · rfl

theorem openCreate_isSome (create : N → Attr) (name : N) (st : Store N B) :
    (openCreate create name st name).isSome := by
  rw [openCreate_eq]
  split_ifs with h
  · rfl
  · rw [Option.isSome_iff_ne_none]
    exact fun hn => h ⟨rfl, hn⟩

theorem openCreate_mono {create : N → Attr} {name n : N} {st : Store N B} (h : (st n).isSome) :
    (openCreate create name st n).isSome := by
  rw [openCreate_eq]
  split_ifs
  · rfl
  · exact h

end OsPractice.MessageQueue
