/-
What a message of `msg_exchange` (`POSIX-mqueue/msg_exchange.c`) says of earlier lines. The sender reads each line into
the same buffer and sends the whole buffer; behind the line and its NUL stands what earlier lines have left there.

A byte of the buffer is that of the last line to reach its place (`left`).

Results:
- `turns_outMsg`: the buffer after any number of lines;
- `messages_agree`: when two histories give the same message for the same line;
- `run_sender`: the parent of the program sends what the loop does.
-/
import OsPractice.PosixMqueue.MsgExchange

namespace OsPractice.OutMsg

open Interleave Bytes MessageQueue MsgExchange

/-! ## The loop -/

structure Sender where
  outMsg : List Byte
  stdin : List Byte
  deriving DecidableEq, Repr

/-- `fgets` into `outMsg`: the string and the sender after it; `m` is `attr.mq_msgsize` -/
def turn (m : ℕ) (s : Sender) : Option (List Byte × Sender) :=
  (Lines.fgets newline m s.stdin).map fun (text, rest) => (text, ⟨fill s.outMsg (text ++ [0]), rest⟩)

/-- the strings of the first `k` turns, and the sender after them -/
def turns (m : ℕ) (s : Sender) : ℕ → Option (List (List Byte) × Sender)
  | 0 => some ([], s)
  | k + 1 => (turns m s k).bind fun (texts, s) => (turn m s).map fun (text, s) => (texts ++ [text], s)

/-- what `mq_send` takes -/
def message (m : ℕ) (s : Sender) : List Byte := s.outMsg.take m

/-! ## The buffer -/

/-- the byte at place `j` that the last of the texts to reach it has left -/
def left (buf : List Byte) (texts : List (List Byte)) (j : ℕ) : Option Byte :=
  match texts.reverse.find? fun text => j ≤ text.length with
  | some text => (text ++ [0])[j]?
  | none => buf[j]?

theorem left_concat (buf : List Byte) (texts : List (List Byte)) (text : List Byte) (j : ℕ) :
    left buf (texts ++ [text]) j = if j ≤ text.length then (text ++ [0])[j]? else left buf texts j := by
  rw [left, List.reverse_concat, List.find?_cons]
  by_cases hj : j ≤ text.length
  · simp [hj]
  · simp [hj, left]

theorem fill_getElem? (buf bs : List Byte) (j : ℕ) : (fill buf bs)[j]? = if j < bs.length then bs[j]? else buf[j]? := by
  rw [fill, List.getElem?_append]
  split_ifs with hj
  · rfl
  · rw [List.getElem?_drop, Nat.add_sub_cancel' (Nat.le_of_not_lt hj)]

theorem turns_succ {m k : ℕ} {s s' : Sender} {texts : List (List Byte)} (h : turns m s (k + 1) = some (texts, s')) :
    ∃ texts₁ s₁ text rest, turns m s k = some (texts₁, s₁) ∧ Lines.fgets newline m s₁.stdin = some (text, rest) ∧
      texts = texts₁ ++ [text] ∧ s' = ⟨fill s₁.outMsg (text ++ [0]), rest⟩ := by
  obtain ⟨⟨texts₁, s₁⟩, hk, h⟩ := Option.bind_eq_some_iff.1 h
  obtain ⟨⟨text, s₂⟩, ht, h⟩ := Option.map_eq_some_iff.1 h
  obtain ⟨⟨text', rest⟩, hget, ht⟩ := Option.map_eq_some_iff.1 ht
  cases ht
  cases h
  exact ⟨texts₁, s₁, text, rest, hk, hget, rfl, rfl⟩

/-- every byte is the one that the last line to reach its place has left -/
theorem turns_outMsg {m k : ℕ} {s s' : Sender} {texts : List (List Byte)} (h : turns m s k = some (texts, s')) (j : ℕ) :
    s'.outMsg[j]? = left s.outMsg texts j := by
  induction k generalizing texts s' with
  | zero =>
    cases h
    rfl
  | succ k ih =>
    obtain ⟨texts₁, s₁, text, rest, hk, -, rfl, rfl⟩ := turns_succ h
    rw [fill_getElem?, left_concat, ih hk, List.length_append, List.length_singleton]
    simp only [Nat.lt_succ_iff]

/-! ## Two histories -/

/-- **Earlier lines.** Two runs with the same contents of the buffer at the start, after histories of any length, read
the same string: the messages are the same if and only if the runs agree, at every place of the message behind the
string and its NUL, on what the last earlier line to reach the place has left there. -/
theorem messages_agree {m k₁ k₂ : ℕ} {buf in₁ in₂ text : List Byte} {texts₁ texts₂ : List (List Byte)}
    {s₁ s₂ : Sender} (h₁ : turns m ⟨buf, in₁⟩ k₁ = some (texts₁ ++ [text], s₁))
    (h₂ : turns m ⟨buf, in₂⟩ k₂ = some (texts₂ ++ [text], s₂)) :
    message m s₁ = message m s₂ ↔
      ∀ j, text.length < j → j < m → left buf texts₁ j = left buf texts₂ j := by
  have hbyte : ∀ j, s₁.outMsg[j]? = s₂.outMsg[j]? ↔ text.length < j → left buf texts₁ j = left buf texts₂ j := by
    intro j
    rw [turns_outMsg h₁, turns_outMsg h₂, left_concat, left_concat]
    split_ifs with hj
    · simp [hj]
    · simp [Nat.lt_of_not_le hj]
  constructor
  · intro heq j hj hm
    refine (hbyte j).1 ?_ hj
    have := congrArg (fun msg => msg[j]?) heq
    simpa [message, List.getElem?_take, hm] using this
  · intro hleft
    refine List.ext_getElem? fun j => ?_
    rw [message, message, List.getElem?_take, List.getElem?_take]
    split_ifs with hm
    · exact (hbyte j).2 fun hj => hleft j hj hm
    · rfl

/-- `ab` or `cd`, and then `c` -/
theorem messages_agree_two :
    ∃ s₁ s₂, turns 8 ⟨List.replicate 8 7, [97, 98, 10, 99, 10]⟩ 2 = some ([[97, 98, 10]] ++ [[99, 10]], s₁) ∧
      turns 8 ⟨List.replicate 8 7, [99, 100, 10, 99, 10]⟩ 2 = some ([[99, 100, 10]] ++ [[99, 10]], s₂) ∧
      message 8 s₁ = message 8 s₂ := by
  have h₁ : turns 8 ⟨List.replicate 8 7, [97, 98, 10, 99, 10]⟩ 2 =
      some ([[97, 98, 10]] ++ [[99, 10]], ⟨[99, 10, 0, 0, 7, 7, 7, 7], []⟩) := by decide
  have h₂ : turns 8 ⟨List.replicate 8 7, [99, 100, 10, 99, 10]⟩ 2 =
      some ([[99, 100, 10]] ++ [[99, 10]], ⟨[99, 10, 0, 0, 7, 7, 7, 7], []⟩) := by decide
  refine ⟨_, _, h₁, h₂, (messages_agree h₁ h₂).2 ?_⟩
  intro j hj hm
  change 2 < j at hj
  interval_cases j <;> rfl

/-- after `a` the message for the line `c` is another one than after `abcd` -/
theorem not_messages_agree :
    ¬ ∀ (m k : ℕ) (buf in₁ in₂ text : List Byte) (texts₁ texts₂ : List (List Byte)) (s₁ s₂ : Sender),
      buf.length = m → 0 ∉ in₁ → 0 ∉ in₂ → turns m ⟨buf, in₁⟩ k = some (texts₁ ++ [text], s₁) →
      turns m ⟨buf, in₂⟩ k = some (texts₂ ++ [text], s₂) → message m s₁ = message m s₂ := by
  intro h
  have := h 8 2 (List.replicate 8 0) [97, 10, 99, 10] [97, 98, 99, 100, 10, 99, 10] [99, 10] [[97, 10]]
    [[97, 98, 99, 100, 10]] _ _ rfl (by decide) (by decide) rfl rfl
  revert this
  decide

/-! ## The program -/

section

variable {user : Peer → List Byte} {create : List Byte → Attr} {input : Peer → List Byte} {p : Peer} {tr : List Event}
  {s : Global}

/-- `outMsg` has no contents yet -/
def Early : Pc → Prop
  | .openMqd1 | .openMqd2 | .getattr | .mallocIn | .mallocOut => True
  | _ => False

/-- how far the parent of peer `p` is in its loop; `buf` is what `malloc` has returned -/
inductive Loop (input : Peer → List Byte) (p : Peer) (texts : List (List Byte)) (stdin : List Byte) (l : Local) :
    Prop where
  | before (hpc : Early l.pc) (htexts : texts = []) (hstdin : stdin = input p)
  | turns (hpc : ¬ Early l.pc) (buf : List Byte)
      (h : turns l.mem.msgsize ⟨buf, input p⟩ texts.length = some (texts, ⟨l.mem.outMsg, stdin⟩))

/-- the loop goes on with the same strings -/
theorem Loop.same {texts : List (List Byte)} {stdin : List Byte} {l l' : Local} (h : Loop input p texts stdin l)
    (hpc : Early l'.pc ↔ Early l.pc) (hm : ¬ Early l.pc → l'.mem = l.mem) : Loop input p texts stdin l' := by
  cases h with
  | before h htexts hstdin => exact .before (hpc.2 h) htexts hstdin
  | turns h buf hturns => exact .turns (mt hpc.1 h) buf (by rwa [hm h])

/-- a step of another process -/
theorem step_other {t : Proc} {c : List Byte} {sh : Shared} {l₀ l : Local} {sh₀ : Shared} {es : List Event}
    (ht : t ≠ .parent p) (hs : prog user create t c sh₀ l₀ = some (sh, l, es)) :
    sh.stdin p = sh₀.stdin p ∧ reads p es = [] := by
  obtain ⟨pc, mem⟩ := l₀
  cases t with
  | parent q =>
    have hq : q ≠ p := fun hq => ht (congrArg Proc.parent hq)
    cases pc with
    | openMqd1 | openMqd2 | fork | closeMqd2 =>
      cases hs
      exact ⟨rfl, rfl⟩
    | getattr =>
      obtain ⟨queue, -, he⟩ := Option.map_eq_some_iff.1 hs
      cases he
      exact ⟨rfl, rfl⟩
    | mallocIn | mallocOut =>
      simp only [prog] at hs
      split_ifs at hs
      cases hs
      exact ⟨rfl, rfl⟩
    | fgets =>
      simp only [prog] at hs
      split at hs
      · cases hs
        exact ⟨rfl, rfl⟩
      · cases hs
        exact ⟨Function.update_of_ne hq.symm _ _, by simp [reads, readBy, hq]⟩
    | send =>
      obtain ⟨queue, -, he⟩ := Option.bind_eq_some_iff.1 hs
      split at he <;> cases he <;> exact ⟨rfl, rfl⟩
    | unborn | closeMqd1 | receive | display | ended => cases hs
  | child q =>
    cases pc with
    | unborn =>
      obtain ⟨mem', -, he⟩ := Option.map_eq_some_iff.1 hs
      cases he
      exact ⟨rfl, rfl⟩
    | closeMqd1 | display =>
      cases hs
      exact ⟨rfl, rfl⟩
    | receive =>
      obtain ⟨queue, -, he⟩ := Option.bind_eq_some_iff.1 hs
      split at he <;> cases he <;> exact ⟨rfl, rfl⟩
    | openMqd1 | openMqd2 | getattr | mallocIn | mallocOut | fork | closeMqd2 | fgets | send | ended => cases hs

theorem step_self {c : List Byte} {sh₀ sh : Shared} {l₀ l : Local} {es : List Event} {texts : List (List Byte)}
    (h : Loop input p texts (sh₀.stdin p) l₀) (hs : prog user create (.parent p) c sh₀ l₀ = some (sh, l, es)) :
    Loop input p (texts ++ reads p es) (sh.stdin p) l := by
  obtain ⟨pc, mem⟩ := l₀
  cases pc with
  | openMqd1 | openMqd2 | closeMqd2 =>
    cases hs
    simpa [reads] using h.same (by simp [Early]) (by simp [Early])
  | getattr =>
    obtain ⟨queue, hq, he⟩ := Option.map_eq_some_iff.1 hs
    cases he
    simpa [reads] using h.same (by simp [Early]) (by simp [Early])
  | mallocIn =>
    simp only [prog] at hs
    split_ifs at hs
    cases hs
    simpa [reads] using h.same (by simp [Early]) (by simp [Early])
  | mallocOut =>
    simp only [prog] at hs
    split_ifs at hs
    cases hs
    -- the loop starts with what `malloc` returns
    cases h with
    | before _ htexts hstdin => exact .turns id c (by rw [htexts, hstdin]; rfl)
    | turns hpc => exact absurd trivial hpc
  | fork =>
    cases hs
    simpa [reads] using h.same (by simp [Early]) (by simp [Early])
  | fgets =>
    cases h with
    | before hpc => cases hpc
    | turns hpc buf h =>
      simp only [prog] at hs
      split at hs
      · cases hs
        exact .turns id buf (by simpa [reads] using h)
      · rename_i text rest hget
        cases hs
        refine .turns id buf ?_
        simp only [reads, readBy, List.filterMap_cons, if_true, List.filterMap_nil, List.length_append,
          List.length_singleton, Function.update_self]
        rw [turns, h]
        simp [turn, hget]
  | send =>
    obtain ⟨queue, -, he⟩ := Option.bind_eq_some_iff.1 hs
    split at he
    · cases he
    · cases he
      simpa [reads] using h.same (by simp [Early]) (by simp [Early])
    · cases he
      simpa [reads] using h.same (by simp [Early]) (by simp [Early])
  | unborn | closeMqd1 | receive | display | ended => cases hs

theorem loop_run {as : List (Proc × List Byte)} (p : Peer) (h : Run (prog user create) (start input) as tr s) :
    Loop input p (reads p tr) (s.sh.stdin p) (s.loc (.parent p)) := by
  have hstart : Loop input p (reads p []) ((start input).sh.stdin p) ((start input).loc (.parent p)) :=
    .before trivial rfl rfl
  refine h.inv_trace (I := fun tr s => Loop input p (reads p tr) (s.sh.stdin p) (s.loc (.parent p))) hstart
    fun tr s t c sh l es hi hs => ?_
  rw [reads_append]
  by_cases ht : t = .parent p
  · subst ht
    simpa using step_self hi hs
  · obtain ⟨hstdin, hreads⟩ := step_other ht hs
    simpa [hstdin, hreads, Function.update_of_ne (Ne.symm ht)] using hi

/-- **The sender.** In every run of the program, the message that a peer is about to send is the one of the loop, after
as many turns as the peer has read strings. -/
theorem run_sender {as : List (Proc × List Byte)} (h : Run (prog user create) (start input) as tr s) (p : Peer)
    (hpc : (s.loc (.parent p)).pc = .send) :
    ∃ buf s', turns (s.loc (.parent p)).mem.msgsize ⟨buf, input p⟩ (reads p tr).length = some (reads p tr, s') ∧
      message (s.loc (.parent p)).mem.msgsize s' =
        (s.loc (.parent p)).mem.outMsg.take (s.loc (.parent p)).mem.msgsize := by
  cases loop_run p h with
  | before hearly =>
    rw [hpc] at hearly
    cases hearly
  | turns _ buf h => exact ⟨buf, _, h, rfl⟩

end

end OsPractice.OutMsg
