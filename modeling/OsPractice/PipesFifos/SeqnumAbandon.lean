/-
Whether a request is answered (`pipesFIFOs/seqnum`), while no signal reaches the server.

The server opens a client's FIFO without waiting and drops the request if nobody has it open for reading; the client
opens it only after it has sent the request. So everything depends on which of the two opens comes first.

The readers of a client's FIFO are its client, from the open on until the close (`Ends`). A client that has entered its
open stays there, or in the read, until a reply is written.

Results:
- `abandoned_iff`: a run abandons no client, in none of its states, exactly when the server never opens a client's FIFO
  before the client has entered its own open;
- `abandoned_one`: a run in which it does.
-/
import OsPractice.PipesFifos.SeqnumUnique

namespace OsPractice.Seqnum

open Interleave Pipe Bytes Decimal

variable {T : Type}

/-- where a client is -/
def clientPc : Loc T → ClientPc
  | .client pc => pc
  | .server _ _ => .ended

@[simp] theorem clientPc_client (pc : ClientPc) : clientPc (.client pc : Loc T) = pc := rfl

/-- waits, or is about to wait, for the reply -/
def Awaits : ClientPc → Prop
  | .openClient _ | .openClientWait _ _ | .readResp _ => True
  | _ => False

/-- does not wait for a reply, and never will -/
def Finished : ClientPc → Prop
  | .closeServer _ _ | .closeClient _ | .print _ | .removeFifo _ _ | .terminate _ _ | .ended => True
  | _ => False

/-- has entered the open of its own FIFO, or will not open it -/
def Entered : ClientPc → Prop
  | .openClientWait _ _ | .readResp _ | .closeServer _ _ | .closeClient _ | .print _ | .removeFifo _ _
  | .terminate _ _ | .ended => True
  | _ => False

/-- how often the client has its FIFO open -/
def opens : ClientPc → ℕ
  | .openClientWait _ _ | .readResp _ | .closeServer _ _ | .closeClient _ | .removeFifo _ true | .terminate _ true => 1
  | _ => 0

/-- has made its FIFO and not removed it -/
def Named : ClientPc → Prop
  | .start | .mkfifo | .terminate _ _ | .ended => False
  | _ => True

theorem Finished.not_awaits {pc : ClientPc} (h : Finished pc) : ¬ Awaits pc := by
  rcases pc <;> first | exact h.elim | exact fun ha => ha

/-- a client that has entered its open and has no reader, or no name for its FIFO, does not wait any more -/
theorem Entered.finished {pc : ClientPc} (h : Entered pc) (ho : opens pc = 0 ∨ ¬ Named pc) : Finished pc := by
  rcases pc
  case openClientWait | readResp => exact ho.elim (fun h1 => by cases h1) fun hn => hn trivial
  all_goals first | exact h.elim | trivial

/-- who has sent a request is about to open its FIFO, or has entered the open -/
theorem entered_of_sent {l : Loc T} (h : ¬ Unsent l) : Entered (clientPc l) ∨ ∃ id, clientPc l = .openClient id := by
  rcases l with _ | pc
  · exact .inl trivial
  · rcases pc with _ | _ | _ | _ | _ | id | _ | _ | _ | _ | _ | _ | _ | _
    case openClient => exact .inr ⟨id, rfl⟩
    case start | mkfifo | openServer | openServerWait | writeReq => exact absurd trivial h
    all_goals exact .inl trivial

/-- the readers of the clients' FIFOs, and their names -/
structure Ends (s : St (Proc T) (Shared T) (Loc T)) : Prop where
  readers : ∀ t, (s.sh.clientFifo t).readers = opens (clientPc (s.loc (.client t)))
  named : ∀ t, Named (clientPc (s.loc (.client t))) → s.sh.clientPath t = true

variable [DecidableEq T] {args : T → Option (List Byte)} {file : List Byte} {tr es : List (Event T)}
  {s s₀ : St (Proc T) (Shared T) (Loc T)}

/-- a step of a client leaves the others' FIFOs alone -/
theorem client_others {t : T} {arg : Option (List Byte)} {sh sh' : Shared T} {pc pc' : ClientPc}
    (h : client t arg sh pc = some (sh', pc', es)) {u : T} (hu : u ≠ t) :
    sh'.clientFifo u = sh.clientFifo u ∧ sh'.clientPath u = sh.clientPath u := by
  cases client_cases h with
  | mkfifo | removeFifo => exact ⟨rfl, Function.update_of_ne hu _ _⟩
  | openClientWait | openClient | readResp | closeClient | exitClient | exitBoth =>
    exact ⟨setClient_of_ne _ _ _ hu, rfl⟩
  | _ => exact ⟨rfl, rfl⟩

/-- what a step of a client does to its own FIFO -/
theorem client_ends {t : T} {arg : Option (List Byte)} {sh sh' : Shared T} {pc pc' : ClientPc}
    (h : client t arg sh pc = some (sh', pc', es)) (hr : (sh.clientFifo t).readers = opens pc)
    (hn : Named pc → sh.clientPath t = true) :
    (sh'.clientFifo t).readers = opens pc' ∧ (Named pc' → sh'.clientPath t = true) := by
  cases client_cases h with
  | help | start => exact ⟨hr, fun hn' => hn'.elim⟩
  | mkfifo => exact ⟨hr, fun _ => Function.update_self _ _ _⟩
  | sigpipe => exact ⟨hr, fun hn' => hn'.elim⟩
  | openClientWait | openClient => exact ⟨by simp [openRead, hr, opens], fun _ => hn trivial⟩
  | readResp => exact ⟨by simpa [opens] using hr, fun _ => hn trivial⟩
  | closeClient => exact ⟨by simp [closeRead, hr, opens], fun _ => hn trivial⟩
  | @removeFifo sv cl => exact ⟨by rcases cl <;> exact hr, fun hn' => hn'.elim⟩
  | exit | exitServer => exact ⟨hr, fun hn' => hn'.elim⟩
  | exitClient | exitBoth => exact ⟨by simp [closeRead, hr, opens], fun hn' => hn'.elim⟩
  | _ => exact ⟨hr, fun _ => hn trivial⟩

/-- a client that has entered its open does not go back, and one that does not wait any more never waits again -/
theorem client_stays {t : T} {arg : Option (List Byte)} {sh sh' : Shared T} {pc pc' : ClientPc}
    (h : client t arg sh pc = some (sh', pc', es)) :
    (Entered pc → Entered pc') ∧ (Finished pc → Finished pc') := by
  cases client_cases h with
  | clientOpened | noResp | readResp => exact ⟨fun _ => trivial, fun h => h.elim⟩
  | closeServer | closeClient | print | removeFifo | exit | exitClient | exitServer | exitBoth =>
    exact ⟨fun _ => trivial, fun _ => trivial⟩
  | _ => exact ⟨fun h => h.elim, fun h => h.elim⟩

theorem closeClientFd_ends (sh : Shared T) (v : Server T) :
    (∀ u, ((closeClientFd sh v).1.clientFifo u).readers = (sh.clientFifo u).readers) ∧
      (closeClientFd sh v).1.clientPath = sh.clientPath := by
  unfold closeClientFd
  split
  · exact ⟨fun _ => rfl, rfl⟩
  · exact ⟨setClient_rel sh (R := fun f f' => f.readers = f'.readers) (fun _ => rfl) (by simp [closeWrite]), rfl⟩

/-- a step of the server leaves the readers and the names of the clients' FIFOs alone -/
theorem server_ends {sh sh' : Shared T} {v v' : Server T} {pc pc' : ServerPc T}
    (h : server sh v pc = some ((sh', v'), pc', es)) :
    (∀ u, (sh'.clientFifo u).readers = (sh.clientFifo u).readers) ∧ sh'.clientPath = sh.clientPath := by
  have hset : ∀ t f, f.readers = (sh.clientFifo t).readers →
      ∀ u, ((sh.setClient t f).clientFifo u).readers = (sh.clientFifo u).readers :=
    fun t f hf => setClient_rel sh (R := fun f f' => f.readers = f'.readers) (fun _ => rfl) hf
  cases server_cases h with
  | openClient | writeReply => exact ⟨hset _ _ rfl, rfl⟩
  | closeClient hr =>
    have hc := closeClientFd_ends sh v
    rwa [hr] at hc
  | closeServerFd hr =>
    have hc := closeServerFd_client sh v
    rw [hr] at hc
    exact ⟨fun u => by rw [hc.1], hc.2⟩
  | closeDummyFd hr =>
    have hc := closeDummyFd_client sh v
    rw [hr] at hc
    exact ⟨fun u => by rw [hc.1], hc.2⟩
  | terminate hr =>
    obtain ⟨sh₁, v₁, hf, hp, hall⟩ := closeAll_client sh v
    have hc := closeClientFd_ends sh₁ v₁
    rwa [← hall, hr, hf, hp] at hc
  | _ => exact ⟨fun _ => rfl, rfl⟩

theorem ends_step {p : Proc T} {c : Unit} {sh : Shared T} {l : Loc T} (h : Ends s)
    (hs : calm args p c s.sh (s.loc p) = some (sh, l, es)) : Ends (s.move p sh l) := by
  rcases calm_step hs with ⟨t, pc, pc', rfl, hl, rfl, hc⟩ | ⟨v, pc, v', pc', rfl, hl, rfl, hc⟩
  · have hr := h.readers t
    have hn := h.named t
    rw [hl] at hr hn
    obtain ⟨h1, h2⟩ := client_ends hc hr hn
    refine ⟨fun u => ?_, fun u => ?_⟩
    · by_cases hu : u = t
      · subst hu
        simpa using h1
      · rw [St.move_sh, (client_others hc hu).1, St.move_loc, Function.update_of_ne (by simpa using hu)]
        exact h.readers u
    · by_cases hu : u = t
      · subst hu
        simpa using h2
      · rw [St.move_sh, (client_others hc hu).2, St.move_loc, Function.update_of_ne (by simpa using hu)]
        exact h.named u
  · obtain ⟨h1, h2⟩ := server_ends hc
    refine ⟨fun u => ?_, fun u => ?_⟩
    · rw [St.move_sh, h1, St.move_loc, Function.update_of_ne (by simp)]
      exact h.readers u
    · rw [St.move_sh, h2, St.move_loc, Function.update_of_ne (by simp)]
      exact h.named u

/-- what holds in every run without signals -/
theorem run_ends {as : List (Proc T × Unit)} (h : Run (calm args) (start file) as tr s) :
    Ends s ∧ Requests args tr s := by
  refine ⟨h.inv ⟨fun t => rfl, fun t hn => hn.elim⟩ fun s p c sh l es hi hs => ends_step hi hs, ?_⟩
  exact (run_calm h).1.requests

/-! ## Dropped requests -/

/-- the server has dropped the request of client `t`: it could not open its FIFO, or not write the reply -/
def Drops (t : T) (e : Event T) : Prop := e = .discarded t ∨ ∃ n, e = .replied t n false

/-- the server has dropped the request of client `t`, and the client waits, or is about to wait, for the reply -/
def Abandoned (tr : List (Event T)) (s : St (Proc T) (Shared T) (Loc T)) (t : T) : Prop :=
  (∃ e ∈ tr, Drops t e) ∧ Awaits (clientPc (s.loc (.client t)))

/-- the server opens a client's FIFO only after the client has entered its own open -/
def OpenedFirst (s : St (Proc T) (Shared T) (Loc T)) (p : Proc T) (_ : Unit) : Prop :=
  match p, s.loc .server with
  | .server, .server _ (.openClient req) => Entered (clientPc (s.loc (.client req.pid)))
  | _, _ => True

/-- where a request is dropped, and why -/
theorem server_drops {sh sh' : Shared T} {v v' : Server T} {pc pc' : ServerPc T}
    (h : server sh v pc = some ((sh', v'), pc', es)) {t : T} {e : Event T} (he : e ∈ es) (hd : Drops t e) :
    ∃ req, req.pid = t ∧ (pc = .openClient req ∧ (sh.clientPath t = false ∨ (sh.clientFifo t).readers = 0) ∨
      pc = .writeReply req ∧ (sh.clientFifo t).readers = 0) := by
  rcases server_events h with ⟨rfl, -⟩ | ⟨req, -, rfl⟩ | ⟨req, rfl, -, rfl, hno⟩ | ⟨req, ok, rfl, -, rfl, hno⟩
  · cases he
  · cases List.mem_singleton.1 he
    rcases hd with hd | ⟨n, hd⟩ <;> cases hd
  · cases List.mem_singleton.1 he
    rcases hd with hd | ⟨n, hd⟩ <;> cases hd
    exact ⟨req, rfl, .inl ⟨rfl, hno⟩⟩
  · cases List.mem_singleton.1 he
    rcases hd with hd | ⟨n, hd⟩ <;> cases hd
    exact ⟨req, rfl, .inr ⟨rfl, hno rfl⟩⟩

/-- what a run keeps in which the clients open first -/
structure Served (args : T → Option (List Byte)) (tr : List (Event T)) (s : St (Proc T) (Shared T) (Loc T)) : Prop where
  ends : Ends s
  begun : ∀ v req, s.loc .server = .server v (.writeReply req) → Entered (clientPc (s.loc (.client req.pid)))
  dropped : ∀ t, ∀ e ∈ tr, Drops t e → Finished (clientPc (s.loc (.client t)))

theorem served_step {p : Proc T} {c : Unit} {sh : Shared T} {l : Loc T} (h : Served args tr s) (hok : OpenedFirst s p c)
    (hs : calm args p c s.sh (s.loc p) = some (sh, l, es)) : Served args (tr ++ es) (s.move p sh l) := by
  have hends := ends_step h.ends hs
  rcases calm_step hs with ⟨t, pc, pc', rfl, hl, rfl, hc⟩ | ⟨v, pc, v', pc', rfl, hl, rfl, hc⟩
  · obtain ⟨hent, hfin⟩ := client_stays hc
    have hes : ∀ u, ∀ e ∈ es, ¬ Drops u e := by
      intro u e he hd
      rcases client_events hc with rfl | ⟨n, -, rfl⟩
      · cases he
      · cases List.mem_singleton.1 he
        rcases hd with hd | ⟨n, hd⟩ <;> cases hd
    refine ⟨hends, ?_, ?_⟩
    · intro v req hv
      rw [St.move_loc, Function.update_of_ne (by simp)] at hv
      have hb := h.begun v req hv
      by_cases hu : req.pid = t
      · subst hu
        rw [hl] at hb
        simpa using hent hb
      · rwa [St.move_loc, Function.update_of_ne (by simpa using hu)]
    · intro u e he hd
      have hf := h.dropped u e ((List.mem_append.1 he).resolve_right fun hm => hes u e hm hd) hd
      by_cases hu : u = t
      · subst hu
        rw [hl] at hf
        simpa using hfin hf
      · rwa [St.move_loc, Function.update_of_ne (by simpa using hu)]
  · have hloc : ∀ u, (s.move .server sh (.server v' pc')).loc (.client u) = s.loc (.client u) := fun u => by simp
    refine ⟨hends, ?_, ?_⟩
    · intro v₁ req hv
      rw [St.move_loc, Function.update_self] at hv
      cases hv
      have hpc : pc = .openClient req := by
        rcases server_events hc with ⟨-, he⟩ | ⟨_, he, -⟩ | ⟨_, -, he, -⟩ | ⟨_, _, -, he, -⟩
        · exact he req rfl
        all_goals cases he
      subst hpc
      unfold OpenedFirst at hok
      rw [hl] at hok
      rwa [hloc]
    · intro u e he hd
      rw [hloc]
      rcases List.mem_append.1 he with he | he
      · exact h.dropped u e he hd
      · obtain ⟨req, rfl, ⟨rfl, hno⟩ | ⟨rfl, hno⟩⟩ := server_drops hc he hd
        · unfold OpenedFirst at hok
          rw [hl] at hok
          refine hok.finished (hno.symm.imp (fun h0 => (h.ends.readers _).symm.trans h0) fun hp hn => ?_)
          rw [h.ends.named _ hn] at hp
          cases hp
        · exact (h.begun v req hl).finished (.inl ((h.ends.readers _).symm.trans hno))

theorem run_served {as : List (Proc T × Unit)} (h : RunIf (calm args) OpenedFirst (start file) as tr s) :
    Served args tr s := by
  refine h.inv_trace (I := Served args) ?_ fun tr s p c sh l es hi hok hs => served_step hi hok hs
  exact ⟨⟨fun t => rfl, fun t hn => hn.elim⟩, fun v req hv => (by cases hv), fun t e he => by cases he⟩

/-- an open by the server that comes first leaves the client behind -/
theorem abandoned_of_early {as : List (Proc T × Unit)} (h : Run (calm args) (start file) as tr s) {p : Proc T} {c : Unit}
    {sh : Shared T} {l : Loc T} (hs : calm args p c s.sh (s.loc p) = some (sh, l, es)) (hok : ¬ OpenedFirst s p c) :
    ∃ t, Abandoned (tr ++ es) (s.move p sh l) t := by
  obtain ⟨hends, hreq⟩ := run_ends h
  unfold OpenedFirst at hok
  split at hok
  · rename_i v req hl
    have hheld := hreq.held
    rw [hl] at hs hheld
    have hsent : ¬ Unsent (s.loc (.client req.pid)) := fun hu => (hreq.unsent _ hu).1 hheld.2.1
    obtain ⟨id, hid⟩ := (entered_of_sent hsent).resolve_left hok
    have hno : (s.sh.clientFifo req.pid).readers = 0 := by rw [hends.readers, hid]; rfl
    have hstep : server s.sh v (.openClient req) = some ((s.sh, v), .readReq, [.discarded req.pid]) := by
      simp [server, openWriteNonblock, hno]
    rw [calm_server hstep] at hs
    cases hs
    refine ⟨req.pid, ⟨_, List.mem_append_right _ List.mem_cons_self, .inl rfl⟩, ?_⟩
    rw [St.move_loc, Function.update_of_ne (by simp), hid]
    trivial
  · exact absurd trivial hok

/-- **No request is abandoned**, without signals, exactly if the clients open first: a run in which the server opens each
client's FIFO only after the client has entered its own open is one that in no state, from its start to its end, has
dropped the request of a client that waits, or is about to wait, for the reply. -/
theorem abandoned_iff (args : T → Option (List Byte)) (file : List Byte) {as : List (Proc T × Unit)}
    {tr : List (Event T)} {s : St (Proc T) (Shared T) (Loc T)} (h : Run (calm args) (start file) as tr s) :
    RunIf (calm args) OpenedFirst (start file) as tr s ↔
      ∀ as' tr' s', as' <+: as → Run (calm args) (start file) as' tr' s' → ∀ t, ¬ Abandoned tr' s' t := by
  constructor
  · intro hif
    clear h
    induction hif with
    | nil =>
      intro as' tr' s' hp hr t hab
      obtain ⟨⟨e, he, -⟩, -⟩ := hab
      obtain rfl := List.prefix_nil.1 hp
      obtain ⟨-, rfl⟩ := hr.unique .nil
      cases he
    | @snoc as tr s hif p c sh l es hok hs ih =>
      intro as' tr' s' hp hr t hab
      rcases List.prefix_concat_iff.1 hp with rfl | hp
      · obtain ⟨rfl, rfl⟩ := hr.unique (hif.run.snoc hs)
        have hserved := run_served (hif.snoc hok hs)
        obtain ⟨⟨e, he, hd⟩, hw⟩ := hab
        exact (hserved.dropped t e he hd).not_awaits hw
      · exact ih as' tr' s' hp hr t hab
  · intro hall
    induction h with
    | nil => exact .nil
    | @snoc as tr s hr p c sh l es hs ih =>
      have hif := ih fun as' tr' s' hp => hall as' tr' s' (hp.trans (List.prefix_append _ _))
      refine hif.snoc ?_ hs
      by_contra hok
      obtain ⟨t, ht⟩ := abandoned_of_early hr hs hok
      exact hall _ _ _ (List.prefix_refl _) (hr.snoc hs) t ht

instance : DecidablePred Entered
  | .openClientWait _ _ | .readResp _ | .closeServer _ _ | .closeClient _ | .print _ | .removeFifo _ _
  | .terminate _ _ | .ended => .isTrue trivial
  | .start | .mkfifo | .openServer | .openServerWait _ _ | .writeReq _ | .openClient _ => .isFalse id

omit [DecidableEq T] in
theorem openedFirst_iff (s : St (Proc T) (Shared T) (Loc T)) (p : Proc T) (c : Unit) :
    OpenedFirst s p c ↔ (match p, s.loc .server with
      | .server, .server _ (.openClient req) => decide (Entered (clientPc (s.loc (.client req.pid))))
      | _, _ => true) = true := by
  unfold OpenedFirst
  split <;> simp

instance (s : St (Proc T) (Shared T) (Loc T)) (p : Proc T) (c : Unit) : Decidable (OpenedFirst s p c) :=
  decidable_of_iff' _ (openedFirst_iff s p c)

/-- the server starts, a client sends its request and, unless `early`, enters the open of its FIFO; then the server reads
the request and opens that FIFO -/
def oneServed (early : Bool) : List (Proc (Fin 2) × Unit) :=
  let go (p : Proc (Fin 2)) (k : ℕ) : List (Proc (Fin 2) × Unit) := List.replicate k (p, ())
  [go .server 6, go (.client 0) 3, go .server 3, go (.client 0) (if early then 1 else 2), go .server 2].flatten

/-- A client that has entered its open is not abandoned. -/
theorem abandoned_iff_one : ∃ s : St (Proc (Fin 2)) (Shared (Fin 2)) (Loc (Fin 2)), ∃ tr,
    Run (calm fun _ => none) (start []) (oneServed false) tr s ∧
    ∀ as' tr' s', as' <+: oneServed false → Run (calm fun _ => none) (start []) as' tr' s' →
      ∀ t, ¬ Abandoned tr' s' t := by
  obtain ⟨s, tr, h, -⟩ := execIf_any_runIf (calm fun _ => none) OpenedFirst (start []) (oneServed false)
    (fun s _ => clientPc (s.loc (.client (0 : Fin 2))) = .openClientWait 0 0) (by decide)
  exact ⟨s, tr, h.run, (abandoned_iff (fun _ => none) [] h.run).1 h⟩

/-- The server opens the client's FIFO first: it drops the request, and the client goes on to wait for the reply. -/
theorem abandoned_one : ∃ s : St (Proc (Fin 2)) (Shared (Fin 2)) (Loc (Fin 2)), ∃ tr,
    Run (calm fun _ => none) (start []) (oneServed true) tr s ∧ Abandoned tr s 0 := by
  obtain ⟨s, tr, h, he, hpc⟩ := exec_any_run (calm fun _ => none) (start []) (oneServed true)
    (fun s tr => Event.discarded (0 : Fin 2) ∈ tr ∧ clientPc (s.loc (.client (0 : Fin 2))) = .openClient 0) (by decide)
  refine ⟨s, tr, h, ⟨_, he, .inl rfl⟩, ?_⟩
  rw [hpc]
  trivial

end OsPractice.Seqnum
