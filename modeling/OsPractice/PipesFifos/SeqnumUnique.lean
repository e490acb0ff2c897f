/-
Whether two clients can print the same number (`pipesFIFOs/seqnum`), while no signal reaches the server.

`atoi` gives 0 for a text without a number and leaves `errno` alone, so the client's test lets 0 through, and negative
lengths; the server adds the lengths up in 32 bits. A client prints the number that was written for it, and the number of
a reply is the sum of the lengths before it. So two clients print the same number if the lengths of the clients served
from the first of them up to the second add up to zero in 32 bits; any clients can be served in any order.

Results:
- `unique_iff`: all clients print different numbers in all runs, exactly when the server gives up over its state file or
  no such sum is zero (`Clash`);
- `printed_twice`: two clients that are given a word print the same number.
-/
import OsPractice.PipesFifos.SeqnumLog

namespace OsPractice.Seqnum

open Interleave Pipe Bytes Decimal

variable {T : Type} [DecidableEq T]

/-- the system without signals -/
def calm (args : T → Option (List Byte)) : Prog (Proc T) Unit (Shared T) (Loc T) (Event T) := fun p _ sh l =>
  prog args p .step sh l

variable {args : T → Option (List Byte)} {file : List Byte} {tr es : List (Event T)}
  {s s₀ : St (Proc T) (Shared T) (Loc T)}

/-- a run without signals has none in the window -/
theorem calm_spares {as : List (Proc T × Unit)} (h : Run (calm args) s₀ as tr s) :
    RunIf (prog args) Spares s₀ (as.map fun a => (a.1, .step)) tr s := by
  induction h with
  | nil => exact .nil
  | snoc _ hs ih =>
    rw [List.map_append]
    exact ih.snoc (.inl rfl) hs

theorem calm_step {p : Proc T} {c : Unit} {sh sh' : Shared T} {l l' : Loc T}
    (h : calm args p c sh l = some (sh', l', es)) :
    (∃ t pc pc', p = .client t ∧ l = .client pc ∧ l' = .client pc' ∧ client t (args t) sh pc = some (sh', pc', es)) ∨
    ∃ v pc v' pc', p = .server ∧ l = .server v pc ∧ l' = .server v' pc' ∧ server sh v pc = some ((sh', v'), pc', es) := by
  rcases prog_step h with ⟨t, pc, pc', hp, -, hl, hl', hc⟩ | ⟨v, pc, v', pc', hp, -, hl, hl', hc⟩ | ⟨_, _, _, _, -, hc, -⟩
  · exact .inl ⟨t, pc, pc', hp, hl, hl', hc⟩
  · exact .inr ⟨v, pc, v', pc', hp, hl, hl', hc⟩
  · cases hc

/-! ## What is printed -/

/-- the client has read the number `n` and not printed it yet -/
def Got (n : BitVec 32) : Loc T → Prop
  | .client (.closeServer _ v) | .client (.closeClient v) | .client (.print v) => v = n
  | _ => False

/-- the numbers on their way to a client, and those printed, have been written for it -/
structure Printed (tr : List (Event T)) (s : St (Proc T) (Shared T) (Loc T)) : Prop where
  fifo : ∀ t, ∀ n ∈ (s.sh.clientFifo t).data, (t, n) ∈ replies tr
  got : ∀ t n, Got n (s.loc (.client t)) → (t, n) ∈ replies tr
  printed : ∀ t n, .printed t n ∈ tr → (t, n) ∈ replies tr

/-- what a step of a client takes out of its FIFO, keeps and prints -/
theorem client_prints {t : T} {arg : Option (List Byte)} {sh sh' : Shared T} {pc pc' : ClientPc}
    (h : client t arg sh pc = some (sh', pc', es)) :
    (∀ u, (sh'.clientFifo u).data.Sublist (sh.clientFifo u).data) ∧
    (∀ n, Got n (.client pc' : Loc T) → Got n (.client pc : Loc T) ∨ n ∈ (sh.clientFifo t).data) ∧
    ∀ u n, .printed u n ∈ es → u = t ∧ Got n (.client pc : Loc T) := by
  have hset : ∀ f, f.data.Sublist (sh.clientFifo t).data →
      ∀ u, ((sh.setClient t f).clientFifo u).data.Sublist (sh.clientFifo u).data :=
    fun f hf => setClient_rel sh (R := fun f f' => f.data.Sublist f'.data) (fun _ => List.Sublist.refl _) hf
  have hrefl : ∀ u, (sh.clientFifo u).data.Sublist (sh.clientFifo u).data := fun _ => List.Sublist.refl _
  cases client_cases h with
  | openClientWait | openClient => exact ⟨hset _ (List.Sublist.refl _), fun _ hg => hg.elim, by simp⟩
  | readResp hd =>
    refine ⟨hset _ (by rw [hd]; exact List.sublist_cons_self _ _), ?_, by simp⟩
    rintro n rfl
    exact .inr (by simp [hd])
  | closeServer => exact ⟨hrefl, fun _ hg => .inl hg, by simp⟩
  | closeClient => exact ⟨hset _ (closeRead_data _), fun _ hg => .inl hg, by simp⟩
  | print =>
    refine ⟨hrefl, fun _ hg => hg.elim, ?_⟩
    intro u n hm
    cases List.mem_singleton.1 hm
    exact ⟨rfl, rfl⟩
  | exitClient | exitBoth => exact ⟨hset _ (closeRead_data _), fun _ hg => hg.elim, by simp⟩
  | _ => exact ⟨hrefl, fun _ hg => hg.elim, by simp⟩

/-- what a step of the server writes for the clients -/
theorem server_writes {sh sh' : Shared T} {v v' : Server T} {pc pc' : ServerPc T}
    (h : server sh v pc = some ((sh', v'), pc', es)) (u : T) {n : BitVec 32} (hn : n ∈ (sh'.clientFifo u).data) :
    n ∈ (sh.clientFifo u).data ∨ (u, n) ∈ replies es := by
  have hset : ∀ (sh₁ : Shared T) t f, f.data.Sublist (sh₁.clientFifo t).data →
      n ∈ ((sh₁.setClient t f).clientFifo u).data → n ∈ (sh₁.clientFifo u).data := fun sh₁ t f hf hm =>
    (setClient_rel sh₁ (R := fun f f' => f.data.Sublist f'.data) (fun _ => List.Sublist.refl _) hf u).subset hm
  have hclose : ∀ sh₁ v₁, sh₁.clientFifo = sh.clientFifo → n ∈ ((closeClientFd sh₁ v₁).1.clientFifo u).data →
      n ∈ (sh.clientFifo u).data := by
    intro sh₁ v₁ he hm
    rw [← he]
    unfold closeClientFd at hm
    split at hm
    · exact hm
    · exact hset sh₁ _ _ (closeWrite_data _) hm
  cases server_cases h with
  | openClient => exact .inl (hset sh _ (openWrite _) (List.Sublist.refl _) hn)
  | @writeReply req hr =>
    by_cases hu : u = req.pid
    · subst hu
      rw [setClient_self, List.mem_append, List.mem_singleton] at hn
      exact hn.imp id fun he => by simp [replies, Event.repliedNum, he]
    · rw [setClient_of_ne _ _ _ hu] at hn
      exact .inl hn
  | closeClient hr => exact .inl (hclose sh v rfl (by rwa [hr]))
  | closeServerFd hr =>
    have he := (closeServerFd_client sh v).1
    rw [hr] at he
    exact .inl (he ▸ hn)
  | closeDummyFd hr =>
    have he := (closeDummyFd_client sh v).1
    rw [hr] at he
    exact .inl (he ▸ hn)
  | terminate hr =>
    obtain ⟨sh₁, v₁, he, -, hall⟩ := closeAll_client sh v
    rw [hr] at hall
    exact .inl (hclose sh₁ v₁ he (by rwa [← hall]))
  | _ => exact .inl hn

theorem server_prints_nothing {sh sh' : Shared T} {v v' : Server T} {pc pc' : ServerPc T}
    (h : server sh v pc = some ((sh', v'), pc', es)) (u : T) (n : BitVec 32) : .printed u n ∉ es := by
  rcases server_events h with ⟨rfl, -⟩ | ⟨req, -, rfl⟩ | ⟨req, -, -, rfl, -⟩ | ⟨req, ok, -, -, rfl, -⟩ <;> simp

theorem printed_step {p : Proc T} {c : Unit} {sh : Shared T} {l : Loc T} (h : Printed tr s)
    (hs : calm args p c s.sh (s.loc p) = some (sh, l, es)) : Printed (tr ++ es) (s.move p sh l) := by
  rcases calm_step hs with ⟨t, pc, pc', rfl, hl, rfl, hc⟩ | ⟨v, pc, v', pc', rfl, hl, rfl, hc⟩
  · obtain ⟨hf, hg, hp⟩ := client_prints hc
    exact {
      fifo := by
        intro u n hn
        rw [replies_append]
        exact List.mem_append_left _ (h.fifo u n ((hf u).subset hn))
      got := by
        intro u n hu
        rw [replies_append]
        by_cases hut : u = t
        · subst hut
          rw [St.move_loc, Function.update_self] at hu
          rcases hg n hu with hg | hn
          · exact List.mem_append_left _ (h.got u n (by rwa [hl]))
          · exact List.mem_append_left _ (h.fifo u n hn)
        · rw [St.move_loc, Function.update_of_ne (by simpa using hut)] at hu
          exact List.mem_append_left _ (h.got u n hu)
      printed := by
        intro u n hm
        rw [replies_append]
        rcases List.mem_append.1 hm with hm | hm
        · exact List.mem_append_left _ (h.printed u n hm)
        · obtain ⟨rfl, hu⟩ := hp u n hm
          exact List.mem_append_left _ (h.got u n (by rwa [hl])) }
  · exact {
      fifo := by
        intro u n hn
        rw [replies_append, List.mem_append]
        exact (server_writes hc u hn).imp (h.fifo u n) id
      got := by
        intro u n hu
        rw [St.move_loc, Function.update_of_ne (by simp)] at hu
        rw [replies_append]
        exact List.mem_append_left _ (h.got u n hu)
      printed := by
        intro u n hm
        rw [replies_append]
        rcases List.mem_append.1 hm with hm | hm
        · exact List.mem_append_left _ (h.printed u n hm)
        · exact absurd hm (server_prints_nothing hc u n) }

/-! ## Who sends -/

/-- a client that is asked for help sends nothing -/
structure Senders (args : T → Option (List Byte)) (tr : List (Event T)) (s : St (Proc T) (Shared T) (Loc T)) : Prop where
  helped : ∀ t, asksHelp (args t) → s.loc (.client t) = .client .start ∨ s.loc (.client t) = .client .ended
  sent : ∀ id, ∀ t ∈ pids s.sh id, ¬ asksHelp (args t)
  received : ∀ t ∈ received tr, ¬ asksHelp (args t)

/-- a client that is asked for help ends at once -/
theorem Senders.helped_step (h : Senders args tr s) {p : Proc T} {c : Unit} {sh : Shared T} {l : Loc T}
    (hs : calm args p c s.sh (s.loc p) = some (sh, l, es)) {u : T} (hu : asksHelp (args u)) :
    (s.move p sh l).loc (.client u) = .client .start ∨ (s.move p sh l).loc (.client u) = .client .ended := by
  by_cases hup : Proc.client u = p
  · subst hup
    rw [St.move_loc, Function.update_self]
    rcases calm_step hs with ⟨t, pc, pc', ht, hl, rfl, hc⟩ | ⟨_, _, _, _, ht, -⟩ <;> cases ht
    rcases h.helped u hu with hst | hst
    · cases hl.symm.trans hst
      simp only [client, if_pos hu] at hc
      cases hc
      exact .inr rfl
    · cases hl.symm.trans hst
      cases hc
  · rw [St.move_loc, Function.update_of_ne hup]
    exact h.helped u hu

theorem senders_step {p : Proc T} {c : Unit} {sh : Shared T} {l : Loc T} (h : Senders args tr s)
    (hs : calm args p c s.sh (s.loc p) = some (sh, l, es)) : Senders args (tr ++ es) (s.move p sh l) := by
  have hhelped : ∀ u, asksHelp (args u) → _ := fun u hu => h.helped_step hs hu
  have hquiet : Quiet s.sh sh es → Senders args (tr ++ es) (s.move p sh l) := by
    intro hq
    obtain ⟨hr, -, hd⟩ := hq
    refine ⟨hhelped, fun id t ht => h.sent id t (((hd id).map _).subset ht), ?_⟩
    rw [received_append, hr, List.append_nil]
    exact h.received
  rcases calm_step hs with ⟨t, pc, pc', rfl, hl, rfl, hc⟩ | ⟨v, pc, v', pc', rfl, hl, rfl, hc⟩
  · rcases client_step hc with ⟨id, f, rfl, rfl, rfl, rfl, hf⟩ | ⟨hq, -⟩
    · refine ⟨hhelped, ?_, by simpa using h.received⟩
      intro id' u hu
      rcases (mem_pids_send hf id' u).1 hu with hu | ⟨-, rfl⟩
      · exact h.sent id' u hu
      · intro hhelp
        rcases h.helped u hhelp with hst | hst <;> cases hl.symm.trans hst
    · exact hquiet hq
  · rcases server_step hc with ⟨id, req, data, f, rfl, hd, rfl, rfl, rfl, rfl⟩ | ⟨req, n, ok, rfl, hsh, rfl, rfl⟩ |
      ⟨hq, -⟩
    · refine ⟨hhelped, fun id' u hu => h.sent id' u ((pids_receive hd id').subset hu), ?_⟩
      intro u hu
      rw [received_append, List.mem_append] at hu
      rcases hu with hu | hu
      · exact h.received u hu
      · obtain rfl : u = req.pid := by simpa [Seqnum.received, Event.receivedPid] using hu
        exact h.sent id _ (by simp [pids, hd])
    · refine ⟨hhelped, ?_, ?_⟩
      · intro id' u hu
        rw [St.move_sh, pids, hsh] at hu
        exact h.sent id' u hu
      · intro u hu
        rw [received_append, List.mem_append] at hu
        exact h.received u (hu.resolve_right (by simp [Seqnum.received, Event.receivedPid]))
    · exact hquiet hq

theorem run_calm {as : List (Proc T × Unit)} (h : Run (calm args) (start file) as tr s) :
    Numbers args file tr s ∧ Printed tr s ∧ Senders args tr s := by
  refine ⟨run_numbers (calm_spares h), h.inv_trace (I := Printed) ?_ ?_, h.inv_trace (I := Senders args) ?_ ?_⟩
  · exact ⟨fun t n hn => by simp [start, Pipe.fresh] at hn, fun t n hg => hg.elim, fun t n hm => by simp at hm⟩
  · intro tr s p c sh l es hp hs
    exact printed_step hp hs
  · exact ⟨fun t _ => .inl rfl, fun id t ht => by simp [pids, start, Pipe.fresh] at ht, fun t ht => by
      simp [Seqnum.received] at ht⟩
  · intro tr s p c sh l es hp hs
    exact senders_step hp hs

/-- some clients' lengths add up to zero in 32 bits, and there is another client to be served after them -/
def Clash (args : T → Option (List Byte)) : Prop :=
  ∃ (X : Finset T) (j : T), X.Nonempty ∧ j ∉ X ∧ (∀ t ∈ insert j X, ¬ asksHelp (args t)) ∧
    ∑ t ∈ X, seqLen (args t) = 0

/-- equal numbers in two replies -/
theorem clash_of_replies (hn : Numbers args file tr s) (hs : Senders args tr s) {pre mid post : List (T × BitVec 32)}
    {i j : T} {v : BitVec 32} (he : replies tr = pre ++ (i, v) :: (mid ++ (j, v) :: post)) :
    load file ≠ none ∧ Clash args := by
  have h1 := hn.numbered pre (i, v) _ he
  have h2 := hn.numbered (pre ++ (i, v) :: mid) (j, v) post (by simp [he])
  have hnd := hn.requests.repliedOnce
  rw [he, List.map_append, List.map_cons, List.map_append, List.map_cons] at hnd
  have hnd' := (List.nodup_append.1 hnd).2.1
  rw [← List.cons_append] at hnd'
  have hsplit := List.nodup_append.1 hnd'
  rw [nextNum_append, ← h1, Option.map_some, Option.some.injEq] at h2
  have hzero : lens args ((i, v) :: mid) = 0 := by
    simpa using h2.symm
  refine ⟨fun hnone => by simp [nextNum, hnone] at h1, (i :: mid.map Prod.fst).toFinset, j, ?_, ?_, ?_, ?_⟩
  · exact ⟨i, by simp⟩
  · intro hj
    exact hsplit.2.2 j (List.mem_toFinset.1 hj) j List.mem_cons_self rfl
  · intro t ht
    refine hs.received t (hn.requests.replied t ?_)
    rw [he]
    rcases Finset.mem_insert.1 ht with rfl | ht
    · simp
    · simp only [List.mem_toFinset, List.mem_cons, List.mem_map] at ht
      simp only [List.map_append, List.map_cons, List.mem_append, List.mem_cons, List.mem_map]
      rcases ht with rfl | ht
      · exact .inr (.inl rfl)
      · exact .inr (.inr (.inl ht))
  · calc ∑ t ∈ (i :: mid.map Prod.fst).toFinset, seqLen (args t)
        = ((i :: mid.map Prod.fst).map fun t => seqLen (args t)).sum := List.sum_toFinset _ hsplit.1
      _ = lens args ((i, v) :: mid) := by rw [lens, List.map_cons, List.map_cons, List.map_map]; rfl
      _ = 0 := hzero

theorem clash_of_printed {as : List (Proc T × Unit)} (h : Run (calm args) (start file) as tr s) {i j : T} {v : BitVec 32}
    (hij : i ≠ j) (hi : .printed i v ∈ tr) (hj : .printed j v ∈ tr) : load file ≠ none ∧ Clash args := by
  obtain ⟨hn, hp, hs⟩ := run_calm h
  obtain ⟨pre, post, he⟩ := List.append_of_mem (hp.printed i v hi)
  have hj' := hp.printed j v hj
  rw [he] at hj'
  rcases List.mem_append.1 hj' with hj' | hj'
  · obtain ⟨pre', mid, rfl⟩ := List.append_of_mem hj'
    have he' : replies tr = pre' ++ (j, v) :: (mid ++ (i, v) :: post) := by simp [he]
    exact clash_of_replies hn hs he'
  · rcases List.mem_cons.1 hj' with hj' | hj'
    · exact absurd (congrArg Prod.fst hj').symm hij
    · obtain ⟨mid, post', rfl⟩ := List.append_of_mem hj'
      exact clash_of_replies hn hs he

/-! ## Clients served one after another -/

theorem calm_client {t : T} {sh sh' : Shared T} {pc pc' : ClientPc}
    (h : client t (args t) sh pc = some (sh', pc', es)) :
    calm args (.client t) () sh (.client pc) = some (sh', .client pc', es) := by
  simp [calm, prog, h]

theorem calm_server {sh sh' : Shared T} {v v' : Server T} {pc pc' : ServerPc T}
    (h : server sh v pc = some ((sh', v'), pc', es)) :
    calm args .server () sh (.server v pc) = some (sh', .server v' pc', es) := by
  simp [calm, prog, h]

/-- the server waits for a request, with `n` as the next number and the requests `data` in its FIFO -/
structure Ready (n : BitVec 32) (data : List (Request T)) (s : St (Proc T) (Shared T) (Loc T)) : Prop where
  server : ∃ v, s.loc .server = .server v .readReq ∧ v.serverFd = some 0 ∧ v.seqNum = n
  path : s.sh.serverPath = some 0
  reader : (s.sh.serverFifos 0).readers ≠ 0
  data : (s.sh.serverFifos 0).data = data

/-- what the other clients see of a run does not change -/
def Others (t : T) (s s' : St (Proc T) (Shared T) (Loc T)) : Prop :=
  ∀ u, u ≠ t → s'.loc (.client u) = s.loc (.client u) ∧ s'.sh.clientFifo u = s.sh.clientFifo u

omit [DecidableEq T] in
theorem Others.trans {t : T} {s s' s'' : St (Proc T) (Shared T) (Loc T)} (h : Others t s s') (h' : Others t s' s'') :
    Others t s s'' :=
  fun u hu => ⟨(h' u hu).1.trans (h u hu).1, (h' u hu).2.trans (h u hu).2⟩

/-- a client that has not been started -/
def Fresh (t : T) (s : St (Proc T) (Shared T) (Loc T)) : Prop :=
  s.loc (.client t) = .client .start ∧ s.sh.clientFifo t = Pipe.fresh

/-- a client that has its FIFO and has opened the server's -/
def Poised (t : T) (s : St (Proc T) (Shared T) (Loc T)) : Prop :=
  s.loc (.client t) = .client (.writeReq 0) ∧ s.sh.clientFifo t = Pipe.fresh ∧ s.sh.clientPath t = true

/-- a client is started and opens the server's FIFO -/
theorem arrive {n : BitVec 32} {t : T} (h : Ready n [] s) (ht : Fresh t s) (hhelp : ¬ asksHelp (args t)) :
    ∃ as s', Run (calm args) s as [] s' ∧ Ready n [] s' ∧ Poised t s' ∧ Others t s s' := by
  obtain ⟨hloc, hfifo⟩ := ht
  have h1 : client t (args t) s.sh .start = some (s.sh, .mkfifo, []) := by simp [client, hhelp]
  have h2 : client t (args t) s.sh .mkfifo =
      some ({ s.sh with clientPath := Function.update s.sh.clientPath t true }, .openServer, []) := rfl
  have h3 : client t (args t) { s.sh with clientPath := Function.update s.sh.clientPath t true } .openServer =
      some (Shared.setServer { s.sh with clientPath := Function.update s.sh.clientPath t true } 0
        (openWrite (s.sh.serverFifos 0)), .writeReq 0, []) := by
    simp [client, h.path, h.reader]
  have halone := (Alone.silent (calm_client h1) (.silent (calm_client h2) (.silent (calm_client h3) (.refl _ _))))
  rw [← hloc] at halone
  obtain ⟨as, hr⟩ := halone.run
  refine ⟨as, _, hr, ?_, ?_, ?_⟩
  · obtain ⟨v, hv, hfd, hn⟩ := h.server
    refine ⟨⟨v, ?_, hfd, hn⟩, h.path, ?_, ?_⟩
    · rwa [St.move_loc, Function.update_of_ne (by simp)]
    · simpa [openWrite] using h.reader
    · simpa [openWrite] using h.data
  · refine ⟨by simp, ?_, ?_⟩
    · simpa using hfifo
    · simp
  · intro u hu
    exact ⟨by simp [hu], rfl⟩

/-- the client sends its request and opens its FIFO -/
theorem request {n : BitVec 32} {t : T} (h : Ready n [] s) (ht : Poised t s) :
    ∃ as s', Run (calm args) s as [] s' ∧ Ready n [⟨t, seqLen (args t)⟩] s' ∧ Others t s s' ∧
      s'.loc (.client t) = .client (.openClientWait 0 0) ∧ s'.sh.clientFifo t = openRead Pipe.fresh ∧
      s'.sh.clientPath t = true := by
  obtain ⟨hloc, hfifo, hpath⟩ := ht
  let f : Fifo (Request T) := { s.sh.serverFifos 0 with data := [⟨t, seqLen (args t)⟩] }
  have h1 : client t (args t) s.sh (.writeReq 0) = some (s.sh.setServer 0 f, .openClient 0, []) := by
    simp [client, write, h.reader, h.data, f]
  have h2 : client t (args t) (s.sh.setServer 0 f) (.openClient 0) =
      some ((s.sh.setServer 0 f).setClient t (openRead Pipe.fresh), .openClientWait 0 0, []) := by
    simp [client, hfifo, Pipe.fresh]
  have halone := Alone.silent (calm_client h1) (.silent (calm_client h2) (.refl _ _))
  rw [← hloc] at halone
  obtain ⟨as, hr⟩ := halone.run
  refine ⟨as, _, hr, ?_, ?_, by simp, by simp, by simpa using hpath⟩
  · obtain ⟨v, hv, hfd, hn⟩ := h.server
    refine ⟨⟨v, ?_, hfd, hn⟩, by simpa using h.path, ?_, by simp [f]⟩
    · rwa [St.move_loc, Function.update_of_ne (by simp)]
    · simpa [f] using h.reader
  · intro u hu
    exact ⟨by simp [hu], by simp [setClient_of_ne _ _ _ hu]⟩

/-- the server replies to the request, and rewrites the state file -/
theorem reply {n : BitVec 32} {t : T} {len : BitVec 32} (h : Ready n [⟨t, len⟩] s)
    (hfifo : s.sh.clientFifo t = openRead Pipe.fresh) (hpath : s.sh.clientPath t = true) :
    ∃ as s', Run (calm args) s as [.received t, .replied t n true] s' ∧ Ready (n + len) [] s' ∧ Others t s s' ∧
      s'.loc (.client t) = s.loc (.client t) ∧ s'.sh.clientFifo t = ⟨1, 0, 1, 1, [n]⟩ := by
  obtain ⟨v, hv, hfd, rfl⟩ := h.server
  let f : Fifo (Request T) := { s.sh.serverFifos 0 with data := [] }
  let sh₁ := s.sh.setServer 0 f
  let sh₂ := sh₁.setClient t ⟨1, 1, 1, 1, []⟩
  let sh₃ := sh₁.setClient t ⟨1, 1, 1, 1, [v.seqNum]⟩
  let sh₄ := sh₁.setClient t ⟨1, 0, 1, 1, [v.seqNum]⟩
  have h1 : server s.sh v .readReq = some ((sh₁, v), .openClient ⟨t, len⟩, [.received t]) := by
    simp [server, hfd, Pipe.read, h.data, sh₁, f]
  have h2 : server sh₁ v (.openClient ⟨t, len⟩) =
      some ((sh₂, { v with clientFd := some t }), .writeReply ⟨t, len⟩, []) := by
    simp [server, sh₁, sh₂, hpath, hfifo, openWriteNonblock, openWrite, openRead, Pipe.fresh]
  have h3 : server sh₂ { v with clientFd := some t } (.writeReply ⟨t, len⟩) =
      some ((sh₃, { v with clientFd := some t }), .closeClient ⟨t, len⟩, [.replied t v.seqNum true]) := by
    simp [server, sh₂, sh₃, write, Shared.setClient]
  have h4 : server sh₃ { v with clientFd := some t } (.closeClient ⟨t, len⟩) =
      some ((sh₄, { v with clientFd := none }), .addSeqLen ⟨t, len⟩, []) := by
    simp [server, closeClientFd, sh₃, sh₄, closeWrite, settle, Shared.setClient]
  have h5 : server sh₄ { v with clientFd := none } (.addSeqLen ⟨t, len⟩) =
      some ((sh₄, { v with clientFd := none, seqNum := v.seqNum + len }), .truncate, []) := rfl
  have h6 : server sh₄ { v with clientFd := none, seqNum := v.seqNum + len } .truncate =
      some (({ sh₄ with initFile := [] }, { v with clientFd := none, seqNum := v.seqNum + len }), .seek, []) := rfl
  have h7 : server { sh₄ with initFile := [] } { v with clientFd := none, seqNum := v.seqNum + len } .seek =
      some (({ sh₄ with initFile := [] }, { v with clientFd := none, seqNum := v.seqNum + len, offset := 0 }),
        .writeInit, []) := rfl
  have h8 : server { sh₄ with initFile := [] } { v with clientFd := none, seqNum := v.seqNum + len, offset := 0 }
      .writeInit = some (({ sh₄ with initFile := writeAt [] 0 (encode (v.seqNum + len)) },
        { v with clientFd := none, seqNum := v.seqNum + len, offset := 0 + intSize }), .readReq, []) := rfl
  have halone : Alone (calm args) .server s.sh (.server v .readReq)
      ([.received t] ++ ([] ++ ([.replied t v.seqNum true] ++ []))) _ _ :=
    .head (calm_server h1) (.head (calm_server h2) (.head (calm_server h3) (.silent (calm_server h4)
      (.silent (calm_server h5) (.silent (calm_server h6) (.silent (calm_server h7) (.silent (calm_server h8)
        (.refl _ _))))))))
  rw [← hv] at halone
  obtain ⟨as, hr⟩ := halone.run
  refine ⟨as, _, hr, ?_, ?_, by simp, by simp [sh₄]⟩
  · exact ⟨⟨_, by simp; rfl, by simpa using hfd, rfl⟩, by simpa [sh₄, sh₁] using h.path,
      by simpa [sh₄, sh₁, f] using h.reader, by simp [sh₄, sh₁, f]⟩
  · intro u hu
    exact ⟨by simp, by simp [sh₄, sh₁, setClient_of_ne _ _ _ hu]⟩

/-- the client reads the reply and prints it -/
theorem take {m n : BitVec 32} {t : T} (h : Ready m [] s) (hloc : s.loc (.client t) = .client (.openClientWait 0 0))
    (hfifo : s.sh.clientFifo t = ⟨1, 0, 1, 1, [n]⟩) :
    ∃ as s', Run (calm args) s as [.printed t n] s' ∧ Ready m [] s' ∧ Others t s s' := by
  let sh₁ := s.sh.setClient t ⟨1, 0, 1, 1, []⟩
  let sh₂ := sh₁.setServer 0 (closeWrite (s.sh.serverFifos 0))
  let sh₃ := sh₂.setClient t ⟨0, 0, 1, 1, []⟩
  have h1 : client t (args t) s.sh (.openClientWait 0 0) = some (s.sh, .readResp 0, []) := by simp [client, hfifo]
  have h2 : client t (args t) s.sh (.readResp 0) = some (sh₁, .closeServer 0 n, []) := by
    simp [client, hfifo, Pipe.read, sh₁]
  have h3 : client t (args t) sh₁ (.closeServer 0 n) = some (sh₂, .closeClient n, []) := rfl
  have h4 : client t (args t) sh₂ (.closeClient n) = some (sh₃, .print n, []) := by
    simp [client, sh₃, sh₂, sh₁, closeRead, settle]
  have h5 : client t (args t) sh₃ (.print n) = some (sh₃, .removeFifo none false, [.printed t n]) := rfl
  have halone : Alone (calm args) (.client t) s.sh (.client (.openClientWait 0 0)) ([.printed t n] ++ []) _ _ :=
    .silent (calm_client h1) (.silent (calm_client h2) (.silent (calm_client h3) (.silent (calm_client h4)
      (.head (calm_client h5) (.refl _ _)))))
  rw [← hloc] at halone
  obtain ⟨as, hr⟩ := halone.run
  refine ⟨as, _, hr, ?_, ?_⟩
  · obtain ⟨v, hv, hfd, hn⟩ := h.server
    refine ⟨⟨v, ?_, hfd, hn⟩, by simpa [sh₃, sh₂, sh₁] using h.path, ?_, ?_⟩
    · rwa [St.move_loc, Function.update_of_ne (by simp)]
    · simpa [sh₃, sh₂, sh₁, closeWrite] using h.reader
    · have hsub := closeWrite_data (s.sh.serverFifos 0)
      rw [h.data] at hsub
      simpa [sh₃, sh₂, sh₁] using hsub
  · intro u hu
    exact ⟨by simp [hu], by simp [sh₃, sh₂, sh₁, setClient_of_ne _ _ _ hu]⟩

theorem serve_poised {n : BitVec 32} {t : T} (h : Ready n [] s) (ht : Poised t s) :
    ∃ as tr s', Run (calm args) s as tr s' ∧ .printed t n ∈ tr ∧ Ready (n + seqLen (args t)) [] s' ∧ Others t s s' := by
  obtain ⟨as₁, s₁, hr₁, h₁, ho₁, hloc₁, hfifo₁, hpath₁⟩ := request h ht
  obtain ⟨as₂, s₂, hr₂, h₂, ho₂, hloc₂, hfifo₂⟩ := reply h₁ hfifo₁ hpath₁
  obtain ⟨as₃, s₃, hr₃, h₃, ho₃⟩ := take h₂ (hloc₂.trans hloc₁) hfifo₂
  exact ⟨_, _, s₃, (hr₁.append hr₂).append hr₃, by simp, h₃, (ho₁.trans ho₂).trans ho₃⟩

omit [DecidableEq T] in
theorem Fresh.other {t u : T} {s s' : St (Proc T) (Shared T) (Loc T)} (h : Fresh u s) (ho : Others t s s') (hu : u ≠ t) :
    Fresh u s' :=
  ⟨(ho u hu).1.trans h.1, (ho u hu).2.trans h.2⟩

theorem serve_fresh {n : BitVec 32} {t : T} (h : Ready n [] s) (ht : Fresh t s) (hhelp : ¬ asksHelp (args t)) :
    ∃ as tr s', Run (calm args) s as tr s' ∧ .printed t n ∈ tr ∧ Ready (n + seqLen (args t)) [] s' ∧ Others t s s' := by
  obtain ⟨as₁, s₁, hr₁, h₁, hp, ho₁⟩ := arrive h ht hhelp
  obtain ⟨as₂, tr, s₂, hr₂, hm, h₂, ho₂⟩ := serve_poised h₁ hp
  exact ⟨as₁ ++ as₂, tr, s₂, hr₁.append hr₂, hm, h₂, ho₁.trans ho₂⟩

/-- clients are served one after another -/
theorem serve_all (us : List T) (hn : us.Nodup) {n : BitVec 32} (h : Ready n [] s) (hf : ∀ u ∈ us, Fresh u s)
    (hhelp : ∀ u ∈ us, ¬ asksHelp (args u)) :
    ∃ as tr s', Run (calm args) s as tr s' ∧ Ready (n + (us.map fun u => seqLen (args u)).sum) [] s' ∧
      ∀ u, u ∉ us → Fresh u s → Fresh u s' := by
  induction us generalizing s n with
  | nil => exact ⟨[], [], s, .nil, by simpa using h, fun _ _ hu => hu⟩
  | cons t us ih =>
    obtain ⟨ht, hn⟩ := List.nodup_cons.1 hn
    obtain ⟨as₁, tr₁, s₁, hr₁, -, h₁, ho⟩ := serve_fresh h (hf t List.mem_cons_self) (hhelp t List.mem_cons_self)
    have hf' : ∀ u ∈ us, Fresh u s₁ := fun u hu =>
      (hf u (List.mem_cons_of_mem _ hu)).other ho (ne_of_mem_of_not_mem hu ht)
    obtain ⟨as₂, tr₂, s₂, hr₂, h₂, ho₂⟩ := ih hn h₁ hf' fun u hu => hhelp u (List.mem_cons_of_mem _ hu)
    refine ⟨_, _, s₂, hr₁.append hr₂, ?_, ?_⟩
    · rwa [List.map_cons, List.sum_cons, ← BitVec.add_assoc]
    · intro u hu hfu
      obtain ⟨hut, hu⟩ := List.ne_and_not_mem_of_not_mem_cons hu
      exact ho₂ u hu (hfu.other ho hut)

/-- the server starts, and a client with it -/
theorem startup {n : BitVec 32} {t : T} (hload : load file = some n) (hhelp : ¬ asksHelp (args t)) :
    ∃ as s', Run (calm args) (start file) as [] s' ∧ Ready n [] s' ∧ Poised t s' ∧ Others t (start file) s' := by
  let sh₀ : Shared T := (start file).sh
  let v₀ : Server T := Server.fresh
  obtain ⟨k, h2⟩ := readInit_load sh₀ v₀ hload rfl
  let v₁ : Server T := { v₀ with seqNum := n, offset := k, handled := [.term, .int] }
  let sh₁ : Shared T := { sh₀.setServer 0 Pipe.fresh with serverPath := some 0, made := 1 }
  let sh₂ : Shared T := sh₁.setServer 0 ⟨1, 0, 1, 0, []⟩
  have h1 : server sh₀ v₀ .openInit = some ((sh₀, v₀), .readInit, []) := rfl
  have h3 : server sh₀ { v₀ with seqNum := n, offset := k } .sigactionInt =
      some ((sh₀, { v₀ with seqNum := n, offset := k, handled := [.int] }), .sigactionTerm, []) := rfl
  have h4 : server sh₀ { v₀ with seqNum := n, offset := k, handled := [.int] } .sigactionTerm =
      some ((sh₀, v₁), .mkfifo, []) := rfl
  have h5 : server sh₀ v₁ .mkfifo = some ((sh₁, v₁), .openServer, []) := rfl
  have h6 : server sh₁ v₁ .openServer = some ((sh₂, v₁), .openServerWait 0 0, []) := rfl
  have halone : Alone (calm args) .server sh₀ (.server v₀ .openInit) [] _ _ :=
    .silent (calm_server h1) (.silent (calm_server h2) (.silent (calm_server h3) (.silent (calm_server h4)
      (.silent (calm_server h5) (.silent (calm_server h6) (.refl _ _))))))
  obtain ⟨as₁, hr₁⟩ := Alone.run (s := start file) halone
  let sh₃ : Shared T := { sh₂ with clientPath := Function.update sh₂.clientPath t true }
  let sh₄ : Shared T := sh₃.setServer 0 ⟨1, 1, 1, 1, []⟩
  have h7 : client t (args t) sh₂ .start = some (sh₂, .mkfifo, []) := by simp [client, hhelp]
  have h8 : client t (args t) sh₂ .mkfifo = some (sh₃, .openServer, []) := rfl
  have h9 : client t (args t) sh₃ .openServer = some (sh₄, .writeReq 0, []) := rfl
  have halone' : Alone (calm args) (.client t) sh₂ (.client .start) [] _ _ :=
    .silent (calm_client h7) (.silent (calm_client h8) (.silent (calm_client h9) (.refl _ _)))
  obtain ⟨as₂, hr₂⟩ := Alone.run (s := (start file).move .server sh₂ (.server v₁ (.openServerWait 0 0))) halone'
  let v₂ : Server T := { v₁ with serverFd := some 0 }
  let v₃ : Server T := { v₂ with dummyFd := some 0 }
  let sh₅ : Shared T := sh₄.setServer 0 ⟨1, 2, 1, 2, []⟩
  have h10 : server sh₄ v₁ (.openServerWait 0 0) = some ((sh₄, v₂), .openDummy, []) := rfl
  have h11 : server sh₄ v₂ .openDummy = some ((sh₅, v₃), .ignoreSigpipe, []) := rfl
  have h12 : server sh₅ v₃ .ignoreSigpipe = some ((sh₅, v₃), .readReq, []) := rfl
  have halone'' : Alone (calm args) .server sh₄ (.server v₁ (.openServerWait 0 0)) [] _ _ :=
    .silent (calm_server h10) (.silent (calm_server h11) (.silent (calm_server h12) (.refl _ _)))
  obtain ⟨as₃, hr₃⟩ := Alone.run
    (s := ((start file).move .server sh₂ (.server v₁ (.openServerWait 0 0))).move (.client t) sh₄ (.client (.writeReq 0)))
    halone''
  refine ⟨_, _, (hr₁.append hr₂).append hr₃, ?_, ?_, ?_⟩
  · exact ⟨⟨v₃, by simp, rfl, rfl⟩, rfl, by simp [sh₅], by simp [sh₅]⟩
  · exact ⟨by simp, rfl, by simp [sh₅, sh₄, sh₃]⟩
  · intro u hu
    exact ⟨by simp [hu], rfl⟩

/-! ## Results -/

theorem printed_of_clash {n : BitVec 32} (hload : load file = some n) (hc : Clash args) :
    ∃ as tr s, ∃ i j : T, Run (calm args) (start file) as tr s ∧ i ≠ j ∧ .printed i n ∈ tr ∧ .printed j n ∈ tr := by
  obtain ⟨X, j, ⟨x, hx⟩, hj, hhelp, hzero⟩ := hc
  obtain ⟨as₁, s₁, hr₁, h₁, hp, ho₁⟩ := startup (t := x) hload (hhelp x (Finset.mem_insert_of_mem hx))
  obtain ⟨as₂, tr₂, s₂, hr₂, hi, h₂, ho₂⟩ := serve_poised h₁ hp
  have hfresh : ∀ u, u ≠ x → Fresh u s₂ := fun u hu => Fresh.other (s := start file) ⟨rfl, rfl⟩ (ho₁.trans ho₂) hu
  have hmem : ∀ u, u ∈ (X.erase x).toList ↔ u ≠ x ∧ u ∈ X := fun u => by simp
  obtain ⟨as₃, tr₃, s₃, hr₃, h₃, hf⟩ := serve_all (X.erase x).toList (Finset.nodup_toList _) h₂
    (fun u hu => hfresh u ((hmem u).1 hu).1) fun u hu => hhelp u (Finset.mem_insert_of_mem ((hmem u).1 hu).2)
  have hjx : j ≠ x := fun he => hj (he ▸ hx)
  have hjf : Fresh j s₃ := hf j (fun hm => hj ((hmem j).1 hm).2) (hfresh j hjx)
  obtain ⟨as₄, tr₄, s₄, hr₄, hj', -, -⟩ := serve_fresh h₃ hjf (hhelp j (Finset.mem_insert_self _ _))
  have hsum : n + seqLen (args x) + ((X.erase x).toList.map fun u => seqLen (args u)).sum = n := by
    have hadd := Finset.add_sum_erase X (fun u => seqLen (args u)) hx
    rw [Finset.sum_map_toList, BitVec.add_assoc]
    calc n + (seqLen (args x) + ∑ u ∈ X.erase x, seqLen (args u)) = n + ∑ u ∈ X, seqLen (args u) := by rw [hadd]
      _ = n := by rw [hzero]; simp
  rw [hsum] at hj'
  refine ⟨_, _, s₄, x, j, ((hr₁.append hr₂).append hr₃).append hr₄, hjx.symm, ?_, ?_⟩
  · simp [hi]
  · simp [hj']

/-- **Different clients print different numbers**, without signals: this holds of all runs of clients with the arguments
`args` exactly when the server gives up over the state file, or no nonempty set of clients that send a request has lengths
that add up to zero in 32 bits while another client sends one. -/
theorem unique_iff (args : T → Option (List Byte)) (file : List Byte) :
    (∀ as tr s, Run (calm args) (start file) as tr s → ∀ i j v w, i ≠ j → .printed i v ∈ tr → .printed j w ∈ tr → v ≠ w) ↔
      load file = none ∨ ¬ Clash args := by
  constructor
  · intro h
    by_contra hno
    push Not at hno
    obtain ⟨hload, hc⟩ := hno
    obtain ⟨n, hn⟩ := Option.ne_none_iff_exists'.1 hload
    obtain ⟨as, tr, s, i, j, hr, hij, hi, hj⟩ := printed_of_clash hn hc
    exact h as tr s hr i j n n hij hi hj rfl
  · intro h as tr s hr i j v w hij hi hj he
    subst he
    obtain ⟨hload, hc⟩ := clash_of_printed hr hij hi hj
    exact h.elim hload fun hno => hno hc

/-- client 0 is started with the server, and then client 1; both are served -/
def twoServed : List (Proc (Fin 2) × Unit) :=
  let go (p : Proc (Fin 2)) (k : ℕ) : List (Proc (Fin 2) × Unit) := List.replicate k (p, ())
  [go .server 6, go (.client 0) 3, go .server 3, go (.client 0) 2, go .server 8, go (.client 0) 5, go (.client 1) 5,
    go .server 8, go (.client 1) 5].flatten

/-- Two clients that are given a word instead of a length print the same number. -/
theorem printed_twice : ∃ s : St (Proc (Fin 2)) (Shared (Fin 2)) (Loc (Fin 2)), ∃ tr,
    Run (calm fun _ => some (text "abc")) (start []) twoServed tr s ∧ .printed 0 0 ∈ tr ∧ .printed 1 0 ∈ tr :=
  exec_any_run (calm fun _ => some (text "abc")) (start []) twoServed
    (fun _ tr => .printed 0 0 ∈ tr ∧ .printed 1 0 ∈ tr) (by decide)

end OsPractice.Seqnum
