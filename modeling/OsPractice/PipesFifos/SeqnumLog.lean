/-
Which numbers the server hands out (`pipesFIFOs/seqnum`), over any number of terminations and restarts.

A request is in one place: not sent, in one of the server's FIFOs, or received, and it is replied to once at most
(`Requests`). While the server is not between a reply and the rewrite of the state file, what the file reads back is the
initial number plus the lengths of all requests replied to, and so is `seqNum` (`Counts`). A termination between the
reply and the rewrite loses the request: a restarted server hands out its numbers again.

Results:
- `restart_disjoint`: in every run without a termination in that window the intervals of the replies are disjoint;
- `restart_repeats`: a run with one hands out the same number twice.
-/
import OsPractice.PipesFifos.Seqnum
import Mathlib.Order.CompletePartialOrder

namespace OsPractice.Seqnum

open Interleave Pipe Bytes Decimal

variable {T : Type}

/-! ## What a trace shows -/

def Event.receivedPid : Event T → Option T
  | .received t => some t
  | _ => none

def Event.repliedNum : Event T → Option (T × BitVec 32)
  | .replied t v _ => some (t, v)
  | _ => none

def Event.writtenNum : Event T → Option (T × BitVec 32)
  | .replied t v true => some (t, v)
  | _ => none

/-- the clients whose requests the server has read -/
def received (tr : List (Event T)) : List T := tr.filterMap Event.receivedPid

/-- the replies, with the clients they are for -/
def replies (tr : List (Event T)) : List (T × BitVec 32) := tr.filterMap Event.repliedNum

/-- the replies that have been written -/
def written (tr : List (Event T)) : List (T × BitVec 32) := tr.filterMap Event.writtenNum

@[simp] theorem received_append (tr es : List (Event T)) : received (tr ++ es) = received tr ++ received es :=
  List.filterMap_append

@[simp] theorem replies_append (tr es : List (Event T)) : replies (tr ++ es) = replies tr ++ replies es :=
  List.filterMap_append

theorem written_sublist (tr : List (Event T)) : (written tr).Sublist (replies tr) := by
  induction tr with
  | nil => exact List.Sublist.refl _
  | cons e tr ih =>
    rcases e with _ | _ | ⟨t, v, _ | _⟩ | _
    case replied.false => exact ih.cons _
    case replied.true => exact ih.cons_cons _
    all_goals exact ih

/-! ## Requests -/

/-- the clients whose requests are in one of the server's FIFOs -/
def pids (sh : Shared T) (id : ℕ) : List T := (sh.serverFifos id).data.map Request.pid

theorem mem_pids_send {sh : Shared T} {id : ℕ} {f : Fifo (Request T)} {req : Request T}
    (hf : f.data = (sh.serverFifos id).data ++ [req]) (id' : ℕ) (u : T) :
    u ∈ pids (sh.setServer id f) id' ↔ u ∈ pids sh id' ∨ id' = id ∧ u = req.pid := by
  by_cases hid : id' = id
  · subst hid
    simp [pids, hf]
  · simp [pids, setServer_of_ne _ _ _ hid, hid]

theorem pids_receive {sh : Shared T} {id : ℕ} {f : Fifo (Request T)} {req : Request T}
    (hd : (sh.serverFifos id).data = req :: f.data) (id' : ℕ) :
    (pids (sh.setServer id f) id').Sublist (pids sh id') := by
  by_cases hid : id' = id
  · subst hid
    simp only [pids, setServer_self, hd, List.map_cons]
    exact List.sublist_cons_self _ _
  · simp [pids, setServer_of_ne _ _ _ hid]

/-- a client that has not sent its request -/
def Unsent : Loc T → Prop
  | .client .start | .client .mkfifo | .client .openServer | .client (.openServerWait _ _) | .client (.writeReq _) => True
  | _ => False

/-- the request that the server is dealing with, before and after the reply -/
def Held (args : T → Option (List Byte)) (recv : List T) (log : List (T × BitVec 32)) : Loc T → Prop
  | .server _ (.openClient req) | .server _ (.writeReply req) =>
    req.seqLen = seqLen (args req.pid) ∧ req.pid ∈ recv ∧ req.pid ∉ log.map Prod.fst
  | .server _ (.closeClient req) | .server _ (.addSeqLen req) => req.seqLen = seqLen (args req.pid)
  | _ => True

/-- where the requests are -/
structure Requests (args : T → Option (List Byte)) (tr : List (Event T)) (s : St (Proc T) (Shared T) (Loc T)) :
    Prop where
  unsent : ∀ t, Unsent (s.loc (.client t)) → t ∉ received tr ∧ ∀ id, t ∉ pids s.sh id
  len : ∀ id, ∀ req ∈ (s.sh.serverFifos id).data, req.seqLen = seqLen (args req.pid)
  fresh : ∀ id, ∀ t ∈ pids s.sh id, t ∉ received tr
  nodup : ∀ id, (pids s.sh id).Nodup
  apart : ∀ id id' t, t ∈ pids s.sh id → t ∈ pids s.sh id' → id = id'
  once : (received tr).Nodup
  repliedOnce : ((replies tr).map Prod.fst).Nodup
  replied : ∀ t ∈ (replies tr).map Prod.fst, t ∈ received tr
  held : Held args (received tr) (replies tr) (s.loc .server)

variable {args : T → Option (List Byte)} {tr es : List (Event T)} {s : St (Proc T) (Shared T) (Loc T)}

theorem Requests.start (args : T → Option (List Byte)) (file : List Byte) :
    Requests args [] (Seqnum.start (T := T) file) where
  unsent t _ := by simp [received, pids, Seqnum.start, Pipe.fresh]
  len id req hr := by simp [Seqnum.start, Pipe.fresh] at hr
  fresh id t ht := by simp [received]
  nodup id := by simp [pids, Seqnum.start, Pipe.fresh]
  apart id id' t ht := by simp [pids, Seqnum.start, Pipe.fresh] at ht
  once := by simp [received]
  repliedOnce := by simp [replies]
  replied t ht := by simp [replies] at ht
  held := trivial

variable [DecidableEq T]

/-- a step of a process that neither sends nor receives a request, and replies to none -/
theorem Requests.quiet (h : Requests args tr s) {p : Proc T} {sh : Shared T} {l : Loc T}
    (hd : ∀ id, (sh.serverFifos id).data.Sublist (s.sh.serverFifos id).data) (hr : received es = [])
    (hl : replies es = []) (hu : ∀ t, p = .client t → Unsent l → Unsent (s.loc p))
    (hh : p = .server → Held args (received tr) (replies tr) l) : Requests args (tr ++ es) (s.move p sh l) := by
  have hp : ∀ id, (pids sh id).Sublist (pids s.sh id) := fun id => (hd id).map _
  have hun : ∀ t, Unsent ((s.move p sh l).loc (.client t)) → Unsent (s.loc (.client t)) := by
    intro t ht
    rw [St.move_loc] at ht
    by_cases hpt : Proc.client t = p
    · subst hpt
      rw [Function.update_self] at ht
      exact hu t rfl ht
    · rwa [Function.update_of_ne hpt] at ht
  rw [← List.append_nil (received tr), ← hr] at hh
  exact {
    unsent := by
      intro t ht
      obtain ⟨h1, h2⟩ := h.unsent t (hun t ht)
      refine ⟨by simpa [hr] using h1, fun id hm => h2 id ((hp id).subset hm)⟩
    len := fun id req hm => h.len id req ((hd id).subset hm)
    fresh := fun id t hm => by simpa [hr] using h.fresh id t ((hp id).subset hm)
    nodup := fun id => (h.nodup id).sublist (hp id)
    apart := fun id id' t hm hm' => h.apart id id' t ((hp id).subset hm) ((hp id').subset hm')
    once := by simpa [hr] using h.once
    repliedOnce := by simpa [hl] using h.repliedOnce
    replied := by simpa [hr, hl] using h.replied
    held := by
      by_cases hps : Proc.server = p
      · subst hps
        simpa [hr, hl] using hh rfl
      · rw [St.move_loc, Function.update_of_ne hps]
        simpa [hr, hl] using h.held }

/-- the request of a client goes into one of the server's FIFOs -/
theorem Requests.send (h : Requests args tr s) {t : T} {id : ℕ} {l : Loc T} (hu : Unsent (s.loc (.client t)))
    (hl : ¬ Unsent l) {f : Fifo (Request T)}
    (hf : f.data = (s.sh.serverFifos id).data ++ [⟨t, seqLen (args t)⟩]) :
    Requests args tr (s.move (.client t) (s.sh.setServer id f) l) := by
  obtain ⟨hrec, hin⟩ := h.unsent t hu
  have hdata : ∀ id', ((s.sh.setServer id f).serverFifos id').data =
      (s.sh.serverFifos id').data ++ if id' = id then [⟨t, seqLen (args t)⟩] else [] := by
    intro id'
    by_cases hid : id' = id
    · subst hid
      simp [hf]
    · simp [setServer_of_ne _ _ _ hid, hid]
  have hpids := mem_pids_send hf
  exact {
    unsent := by
      intro u hu'
      by_cases hut : u = t
      · subst hut
        rw [St.move_loc, Function.update_self] at hu'
        exact absurd hu' hl
      · rw [St.move_loc, Function.update_of_ne (by simpa using hut)] at hu'
        obtain ⟨h1, h2⟩ := h.unsent u hu'
        exact ⟨h1, fun id' hm => ((hpids id' u).1 hm).elim (h2 id') fun hm => hut hm.2⟩
    len := by
      intro id' req hm
      rw [St.move_sh, hdata] at hm
      rcases List.mem_append.1 hm with hm | hm
      · exact h.len id' req hm
      · split_ifs at hm
        · rw [List.mem_singleton.1 hm]
        · cases hm
    fresh := by
      intro id' u hm
      rcases (hpids id' u).1 hm with hm | ⟨-, rfl⟩
      · exact h.fresh id' u hm
      · exact hrec
    nodup := by
      intro id'
      unfold pids
      rw [St.move_sh, hdata, List.map_append, List.nodup_append]
      refine ⟨h.nodup id', by split_ifs <;> simp, ?_⟩
      intro a ha b hb
      split_ifs at hb
      · obtain rfl : b = t := by simpa using hb
        exact ne_of_mem_of_not_mem ha (hin id')
      · simp at hb
    apart := by
      intro id₁ id₂ u h1 h2
      rw [St.move_sh] at h1 h2
      rcases (hpids id₁ u).1 h1 with h3 | ⟨rfl, rfl⟩
      · rcases (hpids id₂ u).1 h2 with h4 | ⟨rfl, rfl⟩
        · exact h.apart id₁ id₂ u h3 h4
        · exact absurd h3 (hin id₁)
      · rcases (hpids id₂ u).1 h2 with h4 | ⟨rfl, -⟩
        · exact absurd h4 (hin id₂)
        · rfl
    once := h.once
    repliedOnce := h.repliedOnce
    replied := h.replied
    held := by
      rw [St.move_loc, Function.update_of_ne (by simp)]
      exact h.held }

/-- the server takes the first request out of its FIFO -/
theorem Requests.receive (h : Requests args tr s) {id : ℕ} {req : Request T} {data : List (Request T)} {v : Server T}
    {f : Fifo (Request T)} (hd : (s.sh.serverFifos id).data = req :: data) (hf : f.data = data) :
    Requests args (tr ++ [.received req.pid]) (s.move .server (s.sh.setServer id f) (.server v (.openClient req))) := by
  have hlog : replies [Event.received req.pid] = [] := rfl
  have hmem : req.pid ∈ pids s.sh id := by simp [pids, hd]
  have hrec := h.fresh id _ hmem
  have hnd := h.nodup id
  rw [pids, hd, List.map_cons, List.nodup_cons] at hnd
  have hsub := pids_receive (f := f) (by rw [hd, hf])
  have hout : ∀ id', req.pid ∉ pids (s.sh.setServer id f) id' := by
    intro id' hm
    by_cases hid : id' = id
    · subst hid
      simp only [pids, setServer_self, hf] at hm
      exact hnd.1 hm
    · exact hid (h.apart id' id req.pid ((hsub id').subset hm) hmem)
  exact {
    unsent := by
      intro t ht
      rw [St.move_loc, Function.update_of_ne (by simp)] at ht
      obtain ⟨h1, h2⟩ := h.unsent t ht
      refine ⟨?_, fun id' hm => h2 id' ((hsub id').subset hm)⟩
      have hne : t ≠ req.pid := fun he => h2 id (he ▸ hmem)
      simpa [received, Event.receivedPid, hne] using h1
    len := by
      intro id' r hm
      by_cases hid : id' = id
      · subst hid
        rw [St.move_sh, setServer_self, hf] at hm
        exact h.len id' r (hd ▸ List.mem_cons_of_mem _ hm)
      · rw [St.move_sh, setServer_of_ne _ _ _ hid] at hm
        exact h.len id' r hm
    fresh := by
      intro id' t hm
      have hne : t ≠ req.pid := fun he => hout id' (he ▸ hm)
      simpa [received, Event.receivedPid, hne] using h.fresh id' t ((hsub id').subset hm)
    nodup := fun id' => (h.nodup id').sublist (hsub id')
    apart := fun id₁ id₂ t h1 h2 => h.apart id₁ id₂ t ((hsub id₁).subset h1) ((hsub id₂).subset h2)
    once := by
      rw [received_append, List.nodup_append]
      refine ⟨h.once, by simp [received, Event.receivedPid], ?_⟩
      intro a ha b hb
      obtain rfl : b = req.pid := by simpa [received, Event.receivedPid] using hb
      exact ne_of_mem_of_not_mem ha hrec
    repliedOnce := by simpa [hlog] using h.repliedOnce
    replied := by
      intro t ht
      rw [replies_append, hlog, List.append_nil] at ht
      rw [received_append, List.mem_append]
      exact .inl (h.replied t ht)
    held := by
      rw [St.move_loc, Function.update_self]
      refine ⟨h.len id req (hd ▸ List.mem_cons_self), by simp [received, Event.receivedPid], ?_⟩
      rw [replies_append, hlog, List.append_nil]
      exact fun hm => hrec (h.replied _ hm) }

/-- the server replies to the request that it is dealing with -/
theorem Requests.reply (h : Requests args tr s) {v v' : Server T} {req : Request T} {sh : Shared T} {n : BitVec 32}
    {ok : Bool} (hl : s.loc .server = .server v (.writeReply req)) (hsh : sh.serverFifos = s.sh.serverFifos) :
    Requests args (tr ++ [.replied req.pid n ok]) (s.move .server sh (.server v' (.closeClient req))) := by
  have hh := h.held
  rw [hl] at hh
  obtain ⟨hlen, hrec, hnot⟩ := hh
  have hr : received [Event.replied req.pid n ok] = [] := rfl
  have hlog : replies [Event.replied req.pid n ok] = [(req.pid, n)] := rfl
  have hp : ∀ id, pids sh id = pids s.sh id := fun id => by rw [pids, pids, hsh]
  exact {
    unsent := by
      intro t ht
      rw [St.move_loc, Function.update_of_ne (by simp)] at ht
      simpa [hr, hp] using h.unsent t ht
    len := by
      rw [St.move_sh, hsh]
      exact h.len
    fresh := by simpa [hr, hp] using h.fresh
    nodup := by simpa [hp] using h.nodup
    apart := by simpa [hp] using h.apart
    once := by simpa [hr] using h.once
    repliedOnce := by
      rw [replies_append, hlog, List.map_append, List.nodup_append]
      refine ⟨h.repliedOnce, by simp, ?_⟩
      intro a ha b hb
      obtain rfl : b = req.pid := by simpa using hb
      exact ne_of_mem_of_not_mem ha hnot
    replied := by
      intro t ht
      rw [replies_append, hlog, List.map_append, List.mem_append] at ht
      rw [received_append, hr, List.append_nil]
      rcases ht with ht | ht
      · exact h.replied t ht
      · obtain rfl : t = req.pid := by simpa using ht
        exact hrec
    held := by
      rw [St.move_loc, Function.update_self]
      exact hlen }

/-! ## What a step does -/

omit [DecidableEq T] in
theorem setServer_data_sublist (sh : Shared T) {id : ℕ} {f : Fifo (Request T)}
    (hf : f.data.Sublist (sh.serverFifos id).data) (id' : ℕ) :
    ((sh.setServer id f).serverFifos id').data.Sublist (sh.serverFifos id').data := by
  by_cases hid : id' = id
  · subst hid
    rwa [setServer_self]
  · rw [setServer_of_ne _ _ _ hid]

/-- the step sends and receives no request and replies to none -/
def Quiet (sh sh' : Shared T) (es : List (Event T)) : Prop :=
  received es = [] ∧ replies es = [] ∧ ∀ id, (sh'.serverFifos id).data.Sublist (sh.serverFifos id).data

/-- a step of a client sends its request, or is quiet -/
theorem client_step {t : T} {arg : Option (List Byte)} {sh sh' : Shared T} {pc pc' : ClientPc}
    (h : client t arg sh pc = some (sh', pc', es)) :
    (∃ id f, pc = .writeReq id ∧ pc' = .openClient id ∧ es = [] ∧ sh' = sh.setServer id f ∧
      f.data = (sh.serverFifos id).data ++ [⟨t, seqLen arg⟩]) ∨
    Quiet sh sh' es ∧ (Unsent (.client pc' : Loc T) → Unsent (.client pc : Loc T)) := by
  have hrefl : ∀ id, (sh.serverFifos id).data.Sublist (sh.serverFifos id).data := fun _ => List.Sublist.refl _
  have hset : ∀ id (f : Fifo (Request T)), f.data = (sh.serverFifos id).data →
      ∀ id', ((sh.setServer id f).serverFifos id').data.Sublist (sh.serverFifos id').data :=
    fun id f hf id' => setServer_data_sublist sh (hf ▸ List.Sublist.refl _) id'
  have hclose : ∀ id id', ((sh.setServer id (closeWrite (sh.serverFifos id))).serverFifos id').data.Sublist
      (sh.serverFifos id').data := fun id id' => setServer_data_sublist sh (closeWrite_data _) id'
  cases client_cases h with
  | writeReq => exact .inl ⟨_, _, rfl, rfl, rfl, rfl, rfl⟩
  | openServerWait | openServer => exact .inr ⟨⟨rfl, rfl, hset _ _ rfl⟩, fun _ => trivial⟩
  | closeServer | exitServer | exitBoth => exact .inr ⟨⟨rfl, rfl, hclose _⟩, fun h => h.elim⟩
  | help | start | mkfifo | noServer | serverOpened | sigpipe => exact .inr ⟨⟨rfl, rfl, hrefl⟩, fun _ => trivial⟩
  | _ => exact .inr ⟨⟨rfl, rfl, hrefl⟩, fun h => h.elim⟩

omit [DecidableEq T] in
theorem Quiet.refl (sh : Shared T) : Quiet sh sh [] := ⟨rfl, rfl, fun _ => List.Sublist.refl _⟩

omit [DecidableEq T] in
theorem Quiet.trans {sh sh' sh'' : Shared T} (h : Quiet sh sh' []) (h' : Quiet sh' sh'' []) : Quiet sh sh'' [] :=
  ⟨rfl, rfl, fun id => (h'.2.2 id).trans (h.2.2 id)⟩

omit [DecidableEq T] in
theorem closeServerFd_step (sh : Shared T) (v : Server T) :
    Quiet sh (closeServerFd sh v).1 [] ∧ (closeServerFd sh v).1.initFile = sh.initFile := by
  unfold closeServerFd
  split
  · exact ⟨Quiet.refl sh, rfl⟩
  · exact ⟨⟨rfl, rfl, setServer_data_sublist sh (closeRead_data _)⟩, rfl⟩

omit [DecidableEq T] in
theorem closeDummyFd_step (sh : Shared T) (v : Server T) :
    Quiet sh (closeDummyFd sh v).1 [] ∧ (closeDummyFd sh v).1.initFile = sh.initFile := by
  unfold closeDummyFd
  split
  · exact ⟨Quiet.refl sh, rfl⟩
  · exact ⟨⟨rfl, rfl, setServer_data_sublist sh (closeWrite_data _)⟩, rfl⟩

theorem closeClientFd_step (sh : Shared T) (v : Server T) :
    Quiet sh (closeClientFd sh v).1 [] ∧ (closeClientFd sh v).1.initFile = sh.initFile ∧
      (closeClientFd sh v).2.seqNum = v.seqNum := by
  unfold closeClientFd
  split <;> exact ⟨Quiet.refl _, rfl, rfl⟩

theorem closeAll_step (sh : Shared T) (v : Server T) :
    Quiet sh (closeAll sh v).1 [] ∧ (closeAll sh v).1.initFile = sh.initFile := by
  obtain ⟨hq1, hi1⟩ := closeServerFd_step sh v
  obtain ⟨hq2, hi2⟩ := closeDummyFd_step (closeServerFd sh v).1 (closeServerFd sh v).2
  obtain ⟨hq3, hi3, -⟩ := closeClientFd_step (closeDummyFd (closeServerFd sh v).1 (closeServerFd sh v).2).1
    (closeDummyFd (closeServerFd sh v).1 (closeServerFd sh v).2).2
  exact ⟨(hq1.trans hq2).trans hq3, (hi3.trans hi2).trans hi1⟩

/-- a step of the server receives a request, replies, or is quiet -/
theorem server_step {sh sh' : Shared T} {v v' : Server T} {pc pc' : ServerPc T}
    (h : server sh v pc = some ((sh', v'), pc', es)) :
    (∃ id req data f, pc = .readReq ∧ (sh.serverFifos id).data = req :: data ∧ f.data = data ∧
      sh' = sh.setServer id f ∧ pc' = .openClient req ∧ es = [.received req.pid]) ∨
    (∃ req n ok, pc = .writeReply req ∧ sh'.serverFifos = sh.serverFifos ∧ pc' = .closeClient req ∧
      es = [.replied req.pid n ok]) ∨
    Quiet sh sh' es ∧ ∀ args recv log, Held args recv log (.server v pc) → Held args recv log (.server v' pc') := by
  have hset : ∀ id (f : Fifo (Request T)), f.data = (sh.serverFifos id).data →
      ∀ id', ((sh.setServer id f).serverFifos id').data.Sublist (sh.serverFifos id').data :=
    fun id f hf id' => setServer_data_sublist sh (hf ▸ List.Sublist.refl _) id'
  cases server_cases h with
  | readReq hfd hd => exact .inl ⟨_, _, _, _, rfl, hd, rfl, rfl, rfl, rfl⟩
  | epipe | writeReply => exact .inr (.inl ⟨_, _, _, rfl, rfl, rfl, rfl⟩)
  | mkfifo =>
    exact .inr (.inr ⟨⟨rfl, rfl, setServer_data_sublist sh (List.nil_sublist _)⟩, fun _ _ _ _ => trivial⟩)
  | openServerWait | openServer | openDummy =>
    exact .inr (.inr ⟨⟨rfl, rfl, hset _ _ rfl⟩, fun _ _ _ _ => trivial⟩)
  | openClient => exact .inr (.inr ⟨⟨rfl, rfl, fun _ => List.Sublist.refl _⟩, fun _ _ _ hh => hh⟩)
  | closeClient hr =>
    have hq := closeClientFd_step sh v
    rw [hr] at hq
    exact .inr (.inr ⟨hq.1, fun _ _ _ hh => hh⟩)
  | closeServerFd hr =>
    have hq := closeServerFd_step sh v
    rw [hr] at hq
    exact .inr (.inr ⟨hq.1, fun _ _ _ _ => trivial⟩)
  | closeDummyFd hr =>
    have hq := closeDummyFd_step sh v
    rw [hr] at hq
    exact .inr (.inr ⟨hq.1, fun _ _ _ _ => trivial⟩)
  | terminate hr =>
    have hq := closeAll_step sh v
    rw [hr] at hq
    exact .inr (.inr ⟨hq.1, fun _ _ _ _ => trivial⟩)
  | _ => exact .inr (.inr ⟨⟨rfl, rfl, fun _ => List.Sublist.refl _⟩, fun _ _ _ _ => trivial⟩)

omit [DecidableEq T] in
theorem signal_step {sig : Signal} {sh sh' : Shared T} {v : Server T} {pc pc' : ServerPc T}
    (h : signal sig sh v pc = some (sh', pc')) :
    Quiet sh sh' [] ∧ sh'.initFile = sh.initFile ∧ ((∃ bl p, pc' = .handler bl p) ∨ pc' = .terminate) := by
  have hact : ∀ bl, (∃ bl' p, action sig v bl = .handler bl' p) ∨ action sig v bl = .terminate := by
    intro bl
    unfold action
    split_ifs
    · exact .inl ⟨_, _, rfl⟩
    · exact .inr rfl
  rcases pc with _ | _ | _ | _ | _ | _ | ⟨id, w⟩ | _ | _ | _ | req | req | req | req | _ | _ | _ | ⟨bl, p⟩ | _ | _
  case openServerWait =>
    cases h
    exact ⟨⟨rfl, rfl, setServer_data_sublist sh (closeRead_data _)⟩, rfl, hact _⟩
  case handler =>
    simp only [signal] at h
    split_ifs at h
    cases h
    exact ⟨Quiet.refl _, rfl, hact _⟩
  case terminate | ended => cases h
  all_goals
    cases h
    exact ⟨Quiet.refl _, rfl, hact _⟩

theorem requests_step {p : Proc T} {c : Choice} {sh : Shared T} {l : Loc T} (h : Requests args tr s)
    (hs : prog args p c s.sh (s.loc p) = some (sh, l, es)) : Requests args (tr ++ es) (s.move p sh l) := by
  rcases prog_step hs with ⟨t, pc, pc', rfl, -, hl, rfl, hc⟩ | ⟨v, pc, v', pc', rfl, -, hl, rfl, hc⟩ |
    ⟨sig, v, pc, pc', rfl, -, hl, rfl, rfl, hc⟩
  · rcases client_step hc with ⟨id, f, rfl, rfl, rfl, rfl, hf⟩ | ⟨⟨hr, hlog, hd⟩, hu⟩
    · rw [List.append_nil]
      exact h.send (l := .client (.openClient id)) (by rw [hl]; trivial) (fun hu => hu) hf
    · exact h.quiet hd hr hlog (fun _ _ hl' => by rw [hl]; exact hu hl') fun hp => by cases hp
  · rcases server_step hc with ⟨id, req, data, f, rfl, hd, hf, rfl, rfl, rfl⟩ |
      ⟨req, n, ok, rfl, hsh, rfl, rfl⟩ | ⟨⟨hr, hlog, hd⟩, hh⟩
    · exact h.receive hd hf
    · exact h.reply hl hsh
    · have hheld := h.held
      rw [hl] at hheld
      exact h.quiet hd hr hlog (fun _ hp => by cases hp) fun _ => hh _ _ _ hheld
  · obtain ⟨⟨hr, hlog, hd⟩, -, hpc⟩ := signal_step hc
    refine h.quiet hd hr hlog (fun _ hp => by cases hp) fun _ => ?_
    rcases hpc with ⟨bl, p, rfl⟩ | rfl <;> trivial

/-! ## Numbers -/

/-- the number that a server goes on from, given the content of the state file; it gives up on one to three bytes -/
def load (file : List Byte) : Option (BitVec 32) :=
  let bs := readAt file 0 intSize
  if bs.length = 0 then some 0 else if bs.length = intSize then some (decode bs) else none

/-- the lengths of the requests replied to, added up -/
def lens (args : T → Option (List Byte)) (log : List (T × BitVec 32)) : BitVec 32 :=
  (log.map fun r => seqLen (args r.1)).sum

/-- what the number after those of the replies is, for the initial content `file` of the state file -/
def nextNum (args : T → Option (List Byte)) (file : List Byte) (log : List (T × BitVec 32)) : Option (BitVec 32) :=
  (load file).map (· + lens args log)

/-- `seqNum` and the state file, for the next number `n` -/
def Counts (n : Option (BitVec 32)) (file : List Byte) (v : Server T) : ServerPc T → Prop
  | .openInit | .handler _ _ | .terminate | .ended => load file = n
  | .readInit => load file = n ∧ v.offset = 0
  | .closeClient req | .addSeqLen req => some (v.seqNum + req.seqLen) = n
  | .truncate => some v.seqNum = n
  | .seek => some v.seqNum = n ∧ file = []
  | .writeInit => some v.seqNum = n ∧ file = [] ∧ v.offset = 0
  | _ => load file = n ∧ some v.seqNum = n

theorem load_write (v : BitVec 32) : load (writeAt [] 0 (encode v)) = some v := by
  have h := read_write (encode v)
  rw [encode_length] at h
  simp only [load, h, encode_length, decode_encode, if_true]
  rfl

theorem load_of_read {file bs : List Byte} {n : BitVec 32} (hb : readAt file 0 intSize = bs)
    (hn : bs.length = 0 ∧ n = 0 ∨ bs.length = intSize ∧ n = decode bs) : load file = some n := by
  simp only [load, hb]
  rcases hn with ⟨h0, rfl⟩ | ⟨h4, rfl⟩
  · rw [if_pos h0]
  · rw [if_neg (by rw [h4]; decide), if_pos h4]

theorem readInit_load (sh : Shared T) (v : Server T) {n : BitVec 32} (h : load sh.initFile = some n) (ho : v.offset = 0) :
    ∃ k, server sh v .readInit = some ((sh, { v with seqNum := n, offset := k }), .sigactionInt, []) := by
  refine ⟨0 + (readAt sh.initFile 0 intSize).length, ?_⟩
  simp only [load] at h
  split_ifs at h with h0 h4
  · cases h
    simp only [server, ho, if_pos h0]
  · cases h
    simp only [server, ho, if_neg h0, if_pos h4]

/-- what a step of the server does to its number and the state file -/
theorem counts_step {n : Option (BitVec 32)} {sh sh' : Shared T} {v v' : Server T} {pc pc' : ServerPc T}
    (h : server sh v pc = some ((sh', v'), pc', es)) (hc : Counts n sh.initFile v pc) :
    (∃ req ok, pc = .writeReply req ∧ es = [.replied req.pid v.seqNum ok] ∧ some v.seqNum = n ∧
      Counts (n.map (· + req.seqLen)) sh'.initFile v' pc') ∨
    replies es = [] ∧ Counts n sh'.initFile v' pc' := by
  cases server_cases h with
  | openInit => exact .inr ⟨rfl, hc, rfl⟩
  | readInit hb hn =>
    obtain ⟨hl, ho⟩ := hc
    rw [ho] at hb
    exact .inr ⟨rfl, hl, (load_of_read hb hn).symm.trans hl⟩
  | readShort | noFifo | noDummy => exact .inr ⟨rfl, hc.1⟩
  | epipe => exact .inl ⟨_, false, rfl, rfl, hc.2, by simp [Counts, ← hc.2]⟩
  | writeReply => exact .inl ⟨_, true, rfl, rfl, hc.2, by simp [Counts, ← hc.2]⟩
  | closeClient hr =>
    have hq := closeClientFd_step sh v
    rw [hr] at hq
    refine .inr ⟨rfl, ?_⟩
    rw [Counts, hq.2.2]
    exact hc
  | truncate => exact .inr ⟨rfl, hc, rfl⟩
  | seek => exact .inr ⟨rfl, hc.1, hc.2, rfl⟩
  | writeInit =>
    obtain ⟨hn, hf, ho⟩ := hc
    refine .inr ⟨rfl, ?_, hn⟩
    rw [← hn, ← load_write v.seqNum, hf, ho]
  | closeServerFd hr =>
    have hq := closeServerFd_step sh v
    rw [hr] at hq
    exact .inr ⟨rfl, (congrArg load hq.2).trans hc⟩
  | closeDummyFd hr =>
    have hq := closeDummyFd_step sh v
    rw [hr] at hq
    exact .inr ⟨rfl, (congrArg load hq.2).trans hc⟩
  | terminate hr =>
    have hq := closeAll_step sh v
    rw [hr] at hq
    exact .inr ⟨rfl, (congrArg load hq.2).trans hc⟩
  | _ => exact .inr ⟨rfl, hc⟩

/-- the server is between a reply and the rewrite of the state file -/
def Rewriting : Loc T → Prop
  | .server _ (.closeClient _) | .server _ (.addSeqLen _) | .server _ .truncate | .server _ .seek
  | .server _ .writeInit => True
  | _ => False

instance : DecidablePred (Rewriting (T := T)) := fun l => by
  unfold Rewriting
  split <;> infer_instance

/-- no signal reaches the server between a reply and the rewrite of the state file -/
def Spares (s : St (Proc T) (Shared T) (Loc T)) (_ : Proc T) (c : Choice) : Prop :=
  c = .step ∨ ¬ Rewriting (s.loc .server)

omit [DecidableEq T] in
theorem Counts.load_eq {n : Option (BitVec 32)} {file : List Byte} {v : Server T} {pc : ServerPc T}
    (h : Counts n file v pc) (hr : ¬ Rewriting (.server v pc)) : load file = n := by
  rcases pc with _ | _ | _ | _ | _ | _ | _ | _ | _ | _ | _ | _ | _ | _ | _ | _ | _ | _ | _ | _
  case openInit | handler | terminate | ended => exact h
  case closeClient | addSeqLen | truncate | seek | writeInit => exact absurd trivial hr
  all_goals exact h.1

/-- what a run without a termination in the window keeps -/
structure Numbers (args : T → Option (List Byte)) (file : List Byte) (tr : List (Event T))
    (s : St (Proc T) (Shared T) (Loc T)) : Prop where
  requests : Requests args tr s
  counts : ∀ v pc, s.loc .server = .server v pc → Counts (nextNum args file (replies tr)) s.sh.initFile v pc
  numbered : ∀ pre r post, replies tr = pre ++ r :: post → some r.2 = nextNum args file pre

variable {file : List Byte}

omit [DecidableEq T] in
theorem nextNum_append (args : T → Option (List Byte)) (file : List Byte) (log log' : List (T × BitVec 32)) :
    nextNum args file (log ++ log') = (nextNum args file log).map (· + lens args log') := by
  simp [nextNum, lens, Function.comp_def, BitVec.add_assoc]

theorem client_initFile {t : T} {arg : Option (List Byte)} {sh sh' : Shared T} {pc pc' : ClientPc}
    (h : client t arg sh pc = some (sh', pc', es)) : sh'.initFile = sh.initFile := by
  cases client_cases h <;> rfl

theorem numbers_step {p : Proc T} {c : Choice} {sh : Shared T} {l : Loc T} (h : Numbers args file tr s)
    (hok : Spares s p c) (hs : prog args p c s.sh (s.loc p) = some (sh, l, es)) :
    Numbers args file (tr ++ es) (s.move p sh l) := by
  have hreq := requests_step h.requests hs
  have hheld := h.requests.held
  rcases prog_step hs with ⟨t, pc, pc', rfl, -, hl, rfl, hc⟩ | ⟨v, pc, v', pc', rfl, -, hl, rfl, hc⟩ |
    ⟨sig, v, pc, pc', rfl, rfl, hl, rfl, rfl, hc⟩
  · have hes : replies es = [] := by
      rcases client_step hc with ⟨_, _, -, -, rfl, -⟩ | ⟨hq, -⟩
      · rfl
      · exact hq.2.1
    refine ⟨hreq, ?_, by simpa [hes] using h.numbered⟩
    intro v pc hv
    rw [St.move_loc, Function.update_of_ne (by simp)] at hv
    rw [St.move_sh, client_initFile hc, replies_append, hes, List.append_nil]
    exact h.counts v pc hv
  · rcases counts_step hc (h.counts v pc hl) with ⟨req, ok, rfl, rfl, hn, hc'⟩ | ⟨hes, hc'⟩
    · rw [hl] at hheld
      have hlog : replies [Event.replied req.pid v.seqNum ok] = [(req.pid, v.seqNum)] := rfl
      refine ⟨hreq, ?_, ?_⟩
      · intro v₁ pc₁ hv
        rw [St.move_loc, Function.update_self] at hv
        cases hv
        rw [replies_append, hlog, nextNum_append]
        simpa [lens, ← hheld.1] using hc'
      · intro pre r post he
        rw [replies_append, hlog] at he
        rcases split_append he with ⟨post', he'⟩ | ⟨pre', rfl, he'⟩
        · exact h.numbered pre r post' he'
        · rcases pre' with _ | ⟨a, pre'⟩
          · cases he'
            rwa [List.append_nil]
          · simp at he'
    · refine ⟨hreq, ?_, by simpa [hes] using h.numbered⟩
      intro v₁ pc₁ hv
      rw [St.move_loc, Function.update_self] at hv
      cases hv
      rw [replies_append, hes, List.append_nil]
      exact hc'
  · have hload := (h.counts v pc hl).load_eq (by rw [← hl]; exact hok.resolve_left (by simp))
    obtain ⟨-, hfile, hpc⟩ := signal_step hc
    refine ⟨hreq, ?_, by simpa using h.numbered⟩
    intro v₁ pc₁ hv
    rw [St.move_loc, Function.update_self] at hv
    cases hv
    rw [St.move_sh, hfile, List.append_nil]
    rcases hpc with ⟨bl, p, rfl⟩ | rfl <;> exact hload

theorem run_numbers {as : List (Proc T × Choice)} (h : RunIf (prog args) Spares (start file) as tr s) :
    Numbers args file tr s := by
  refine h.inv_trace (I := Numbers args file) ?_ fun tr s p c sh l es hn hok hs => numbers_step hn hok hs
  refine ⟨Requests.start args file, ?_, ?_⟩
  · intro v pc hv
    cases hv
    simp [Counts, nextNum, lens, replies, start]
  · intro pre r post he
    simp [replies] at he

/-! ## Results -/

/-- the numbers that a reply hands out -/
def interval (args : T → Option (List Byte)) (r : T × BitVec 32) : Set ℤ :=
  Set.Ico r.2.toInt (r.2.toInt + (seqLen (args r.1)).toInt)

omit [DecidableEq T] in
/-- the lengths of different clients' requests add up without overflow, if those of all clients do -/
theorem lens_toInt [Fintype T] (hpos : ∀ t, 0 < (seqLen (args t)).toInt) {n : BitVec 32}
    (hsum : n.toInt + ∑ t, (seqLen (args t)).toInt < 2 ^ 31) {log : List (T × BitVec 32)}
    (hlog : (log.map Prod.fst).Nodup) :
    (n + lens args log).toInt = n.toInt + (log.map fun r => (seqLen (args r.1)).toInt).sum := by
  classical
  have hle : (log.map fun r => (seqLen (args r.1)).toInt).sum ≤ ∑ t, (seqLen (args t)).toInt := by
    have h1 := List.sum_toFinset (fun t => (seqLen (args t)).toInt) hlog
    rw [List.map_map] at h1
    rw [Function.comp_def] at h1
    rw [← h1]
    exact Finset.sum_le_univ_sum_of_nonneg fun t => (hpos t).le
  have h := toInt_sum (log.map fun r => seqLen (args r.1)) n ?_ ?_
  · rw [lens, h, List.map_map, Function.comp_def]
  · intro v hv
    obtain ⟨r, -, rfl⟩ := List.mem_map.1 hv
    exact (hpos r.1).le
  · rw [List.map_map, Function.comp_def]
    omega

omit [DecidableEq T] in
/-- a reply ends where the next ones begin, or before -/
theorem Numbers.replies_apart [Fintype T] (h : Numbers args file tr s) (hpos : ∀ t, 0 < (seqLen (args t)).toInt)
    (hsum : ∀ n, load file = some n → n.toInt + ∑ t, (seqLen (args t)).toInt < 2 ^ 31)
    {pre mid post : List (T × BitVec 32)} {r r' : T × BitVec 32} (he : replies tr = pre ++ r :: (mid ++ r' :: post)) :
    r.2.toInt + (seqLen (args r.1)).toInt ≤ r'.2.toInt := by
  have hr := h.numbered pre r _ he
  have hr' := h.numbered (pre ++ r :: mid) r' post (by simp [he])
  have hnd := h.requests.repliedOnce
  rw [he] at hnd
  cases hload : load file with
  | none => simp [nextNum, hload] at hr
  | some n =>
    simp only [nextNum, hload, Option.map_some, Option.some.injEq] at hr hr'
    have h1 : (pre.map Prod.fst).Nodup := hnd.sublist (by simp)
    have h2 : ((pre ++ r :: mid).map Prod.fst).Nodup :=
      hnd.sublist (by simp)
    rw [hr, hr', lens_toInt hpos (hsum n hload) h1, lens_toInt hpos (hsum n hload) h2, List.map_append, List.sum_append,
      List.map_cons, List.sum_cons]
    have h3 : 0 ≤ (mid.map fun r => (seqLen (args r.1)).toInt).sum := by
      refine List.sum_nonneg fun x hx => ?_
      obtain ⟨a, -, rfl⟩ := List.mem_map.1 hx
      exact (hpos a.1).le
    omega

/-- **No number is handed out twice across restarts**, in every run in which no termination falls between a reply and the
rewrite of the state file: for requests with positive lengths that do not add up to an overflow, and any terminations and
restarts elsewhere, the intervals of the replies are disjoint. -/
theorem restart_disjoint [Fintype T] (args : T → Option (List Byte)) (hpos : ∀ t, 0 < (seqLen (args t)).toInt)
    (file : List Byte) (hsum : ∀ n, load file = some n → n.toInt + ∑ t, (seqLen (args t)).toInt < 2 ^ 31)
    {as : List (Proc T × Choice)} {tr : List (Event T)} {s : St (Proc T) (Shared T) (Loc T)}
    (h : RunIf (prog args) Spares (start file) as tr s) :
    (written tr).Pairwise fun r r' => Disjoint (interval args r) (interval args r') := by
  have hn := run_numbers h
  refine List.Pairwise.sublist (written_sublist tr) (pairwise_of_split fun pre r mid r' post he => ?_)
  have hle := hn.replies_apart hpos hsum he
  unfold interval
  rw [Set.Ico_disjoint_Ico]
  exact (min_le_left _ _).trans (hle.trans (le_max_right _ _))

instance (s : St (Proc T) (Shared T) (Loc T)) (p : Proc T) (c : Choice) : Decidable (Spares s p c) :=
  inferInstanceAs (Decidable (_ ∨ _))

/-- `n` steps of a process -/
def steps (p : Proc (Fin 2)) (n : ℕ) : List (Proc (Fin 2) × Choice) := List.replicate n (p, .step)

/-- the server starts, and replies to client `t` -/
def serve (t : Fin 2) : List (Proc (Fin 2) × Choice) :=
  [steps .server 6, steps (.client t) 3, steps .server 3, steps (.client t) 2, steps .server 3].flatten

/-- the server replies to client 0; after `k` more steps it is terminated and started again, and replies to client 1 -/
def restarted (k : ℕ) : List (Proc (Fin 2) × Choice) :=
  [serve 0, steps .server k, [(.server, .signal .int)], steps .server 6, serve 1].flatten

theorem restart_disjoint_two : ∃ s : St (Proc (Fin 2)) (Shared (Fin 2)) (Loc (Fin 2)), ∃ tr,
    RunIf (prog fun _ => none) Spares (start []) (restarted 5) tr s ∧ written tr = [(0, 0), (1, 1)] ∧
    (written tr).Pairwise fun r r' => Disjoint (interval (fun _ => none) r) (interval (fun _ => none) r') := by
  obtain ⟨s, tr, h, htr⟩ := execIf_any_runIf (prog fun _ => none) Spares (start []) (restarted 5)
    (fun _ tr => written tr = [(0, 0), (1, 1)]) (by decide)
  refine ⟨s, tr, h, htr, restart_disjoint (fun _ => none) (fun _ => (by decide : 0 < (seqLen none).toInt)) [] ?_ h⟩
  intro n hn
  cases hn
  decide

/-- A termination right after a reply: the restarted server hands out the same number again. -/
theorem restart_repeats : (∀ t : Fin 2, 0 < (seqLen ((fun _ => none) t)).toInt) ∧
    (∀ n, load [] = some n → n.toInt + ∑ t : Fin 2, (seqLen ((fun _ => none) t)).toInt < 2 ^ 31) ∧
    ∃ s : St (Proc (Fin 2)) (Shared (Fin 2)) (Loc (Fin 2)), ∃ tr,
      Run (prog fun _ => none) (start []) (restarted 0) tr s ∧ written tr = [(0, 0), (1, 0)] ∧
      ¬ (written tr).Pairwise fun r r' => Disjoint (interval (fun _ => none) r) (interval (fun _ => none) r') := by
  refine ⟨fun _ => (by decide : 0 < (seqLen none).toInt), fun n hn => ?_, ?_⟩
  · cases hn
    decide
  · obtain ⟨s, tr, h, htr⟩ := exec_any_run (prog fun _ => none) (start []) (restarted 0)
      (fun _ tr => written tr = [(0, 0), (1, 0)]) (by decide)
    refine ⟨s, tr, h, htr, ?_⟩
    rw [htr]
    intro hp
    have hdis := (List.pairwise_cons.1 hp).1 (1, 0) (by simp)
    have hpos : (0 : ℤ) < (0 : BitVec 32).toInt + (seqLen none).toInt := by decide
    have hzero : ∀ t : Fin 2, (0 : ℤ) ∈ interval (fun _ => none) (t, 0) := fun _ => ⟨le_rfl, hpos⟩
    exact Set.disjoint_left.1 hdis (hzero 0) (hzero 1)

end OsPractice.Seqnum
