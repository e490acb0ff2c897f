/-
The names of the queues of many conversations (`POSIX-mqueue/msg_exchange.c`). A pair of users has a queue for each
direction, `/SRC_to_DST`. The separator may stand inside a user's name, and the buffer ends after 99 characters.

Two directions are `Alike` or `Overlap` by their users' names alone: nothing is said of the names of the queues.

Results:
- `queueName_eq_iff`: the pairs of users whose queues have one name;
- `conversations_apart`: when a message to one user does not come to the queue of another;
- `conversations_collide`: a message that another user is shown.
-/
import OsPractice.PosixMqueue.MsgExchange

namespace OsPractice.QueueNames

open Bytes MessageQueue MsgExchange

/-! ## Where two names have room -/

/-- `_to_` -/
def separator : List Byte := [95, 116, 111, 95]

/-- the senders' names are as long as each other and do not differ within the buffer, and the receivers' do not where
there is room for them -/
def Alike (a b c d : List Byte) : Prop :=
  a.length = c.length ∧ a.take 98 = c.take 98 ∧ b.take (94 - a.length) = d.take (94 - a.length)

/-- the longer name `c` of a sender goes on with the separator after the name `a`, or fills the buffer -/
def Overlap (a b c d : List Byte) : Prop :=
  a.length < c.length ∧
    if 98 ≤ c.length then (a ++ separator ++ b).take 98 = c.take 98
    else (c = a ++ [95, 116, 111] ∧ b.take (94 - a.length) = ([116, 111, 95] ++ d).take (94 - a.length)) ∨
      ∃ z, c = a ++ separator ++ z ∧ b.take (94 - a.length) = (z ++ separator ++ d).take (94 - a.length)

section

variable {A : Type} {a c x y : List A} {n : ℕ}

/-- two texts whose first parts have one length -/
theorem take_append_eq_iff (h : a.length = c.length) :
    (a ++ x).take n = (c ++ y).take n ↔ a.take n = c.take n ∧ x.take (n - a.length) = y.take (n - a.length) := by
  rw [List.take_append, List.take_append, ← h]
  constructor
  · intro heq
    exact List.append_inj heq (by rw [List.length_take, List.length_take, h])
  · rintro ⟨h1, h2⟩
    rw [h1, h2]

/-- the longer of two first parts begins with the other -/
theorem exists_eq_append (hlen : a.length < c.length) (hn : c.length ≤ n) (h : (a ++ x).take n = (c ++ y).take n) :
    ∃ w, w ≠ [] ∧ c = a ++ w := by
  have hpre : (a ++ x).take a.length = (c ++ y).take a.length := by
    have := congrArg (List.take a.length) h
    rwa [List.take_take, List.take_take, Nat.min_eq_left (by omega)] at this
  rw [List.take_left, List.take_append_of_le_length hlen.le] at hpre
  refine ⟨c.drop a.length, by simpa using hlen, ?_⟩
  calc c = c.take a.length ++ c.drop a.length := (List.take_append_drop _ c).symm
    _ = a ++ c.drop a.length := by rw [← hpre]

end

/-- what follows the shorter of two names: the separator begins anew in `w` at its last character only -/
theorem separator_take_eq_iff {b d w : List Byte} {n : ℕ} (hw : w ≠ []) (hn : w.length < n) :
    (separator ++ b).take n = (w ++ (separator ++ d)).take n ↔
      (w = [95, 116, 111] ∧ b.take (n - 4) = ([116, 111, 95] ++ d).take (n - 4)) ∨
        ∃ z, w = separator ++ z ∧ b.take (n - 4) = (z ++ separator ++ d).take (n - 4) := by
  match w, hw with
  | [u], _ =>
    obtain ⟨k, rfl⟩ := Nat.exists_eq_add_of_le' (show 2 ≤ n from hn)
    simp [separator]
  | [u, v], _ =>
    obtain ⟨k, rfl⟩ := Nat.exists_eq_add_of_le' (show 3 ≤ n from hn)
    simp [separator]
  | [u, v, x], _ =>
    obtain ⟨k, rfl⟩ := Nat.exists_eq_add_of_le' (show 4 ≤ n from hn)
    constructor
    · intro h
      simp [separator] at h
      obtain ⟨rfl, rfl, rfl, h⟩ := h
      exact .inl ⟨rfl, by simpa using h⟩
    · rintro (⟨h, hb⟩ | ⟨z, h, -⟩)
      · rw [h]
        simpa [separator] using hb
      · cases h
  | u :: v :: x :: y :: z, _ =>
    obtain ⟨k, rfl⟩ := Nat.exists_eq_add_of_le' (show 4 ≤ n by simp at hn; omega)
    constructor
    · intro h
      simp [separator] at h
      obtain ⟨rfl, rfl, rfl, rfl, h⟩ := h
      exact .inr ⟨z, rfl, by simpa [separator] using h⟩
    · rintro (⟨h, -⟩ | ⟨z, h, hb⟩)
      · cases h
      · rw [h]
        simpa [separator] using hb

/-! ## When two directions have one name -/

theorem queueName_eq (src dst : List Byte) : queueName src dst = 47 :: (src ++ (separator ++ dst)).take 98 := by
  simp [queueName, separator]

/-- what is left for the receiver's name -/
theorem room (n : ℕ) : 98 - n - separator.length = 94 - n := by
  change 98 - n - 4 = 94 - n
  omega

theorem alike_iff {a b c d : List Byte} (h : a.length = c.length) :
    (a ++ (separator ++ b)).take 98 = (c ++ (separator ++ d)).take 98 ↔ Alike a b c d := by
  rw [take_append_eq_iff h, take_append_eq_iff rfl, room, and_iff_right rfl, Alike, and_iff_right h]

theorem overlap_iff {a b c d : List Byte} (h : a.length < c.length) :
    (a ++ (separator ++ b)).take 98 = (c ++ (separator ++ d)).take 98 ↔ Overlap a b c d := by
  rw [Overlap, and_iff_right h]
  split_ifs with hc
  · rw [List.take_append_of_le_length hc, List.append_assoc]
  · have hcut : ∀ w, w ≠ [] → c = a ++ w →
        ((a ++ (separator ++ b)).take 98 = (a ++ (w ++ (separator ++ d))).take 98 ↔
          (w = [95, 116, 111] ∧ b.take (94 - a.length) = ([116, 111, 95] ++ d).take (94 - a.length)) ∨
            ∃ z, w = separator ++ z ∧ b.take (94 - a.length) = (z ++ separator ++ d).take (94 - a.length)) := by
      intro w hw hcw
      have hlen : w.length < 98 - a.length := by
        rw [hcw, List.length_append] at hc
        omega
      rw [take_append_eq_iff rfl, and_iff_right rfl, separator_take_eq_iff hw hlen, ← room]
      rfl
    constructor
    · intro heq
      obtain ⟨w, hw, rfl⟩ := exists_eq_append h (by omega) heq
      rw [List.append_assoc, hcut w hw rfl] at heq
      simpa only [List.append_assoc, List.append_cancel_left_eq] using heq
    · rintro (⟨rfl, hb⟩ | ⟨z, rfl, hb⟩)
      · rw [List.append_assoc]
        exact (hcut _ (by simp) rfl).2 (.inl ⟨rfl, hb⟩)
      · rw [List.append_assoc, List.append_assoc]
        rw [← List.append_assoc separator z]
        exact (hcut _ (by simp [separator]) (List.append_assoc ..)).2 (.inr ⟨z, rfl, hb⟩)

theorem queueName_eq_iff (a b c d : List Byte) :
    queueName a b = queueName c d ↔ Alike a b c d ∨ Overlap a b c d ∨ Overlap c d a b := by
  rw [queueName_eq, queueName_eq, List.cons_inj_right]
  rcases lt_trichotomy a.length c.length with h | h | h
  · rw [overlap_iff h]
    simp [Alike, Overlap, h.ne, h.not_gt]
  · rw [alike_iff h]
    simp [Overlap, h]
  · rw [eq_comm, overlap_iff h]
    simp [Alike, Overlap, h.ne', h.not_gt]

/-! ## Conversations -/

/-- a message from `a` to `b` does not come into the queue from `c` to `d` -/
def Apart (a b c d : List Byte) : Prop :=
  queueName a b ≠ queueName c d ∧ ∀ (queues : Store (List Byte) Byte) (q : Queue Byte),
    contents (Function.update queues (queueName a b) (some q)) (queueName c d) = contents queues (queueName c d)

/-- the queue that `d` reads has the messages to `b` too -/
theorem conversations_collide {a b c d : List Byte} (h : Alike a b c d ∨ Overlap a b c d ∨ Overlap c d a b)
    {queues : Store (List Byte) Byte} {q q' : Queue Byte} {msg : List Byte} (hq : queues (queueName a b) = some q)
    (hs : send msg q = .done q') :
    contents (Function.update queues (queueName a b) (some q')) (queueName c d) =
      contents queues (queueName c d) ++ [msg] := by
  rw [← (queueName_eq_iff a b c d).2 h, contents_of_eq (Function.update_self ..), contents_of_eq hq]
  unfold MessageQueue.send at hs
  split_ifs at hs
  cases hs
  rfl

/-- **Conversations.** For any two pairs of users: their queues have different names, and a message of the one
conversation does not come into the queue of the other, if and only if the pairs are neither alike within the buffer
nor overlap at the separator. -/
theorem conversations_apart (a b c d : List Byte) :
    Apart a b c d ↔ ¬ (Alike a b c d ∨ Overlap a b c d ∨ Overlap c d a b) := by
  rw [Apart, ← queueName_eq_iff]
  constructor
  · exact And.left
  · intro hne
    refine ⟨hne, fun queues q => ?_⟩
    rw [contents, contents, Function.update_of_ne (Ne.symm hne)]

/-- a user's name -/
def IsUser (name : List Byte) : Prop := name ≠ [] ∧ 47 ∉ name ∧ 0 ∉ name

/-- the users `x_to_y` and `z`, and the users `x` and `y_to_z` -/
theorem not_apart :
    ¬ ∀ a b c d, IsUser a → IsUser b → IsUser c → IsUser d → (a, b) ≠ (c, d) → Apart a b c d := by
  intro h
  have hapart := h [120, 95, 116, 111, 95, 121] [122] [120] [121, 95, 116, 111, 95, 122] (by simp [IsUser])
    (by simp [IsUser]) (by simp [IsUser]) (by simp [IsUser]) (by simp)
  exact hapart.1 (by decide)

end OsPractice.QueueNames
