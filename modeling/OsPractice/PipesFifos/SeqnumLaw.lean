/-
What the sequence-number server (`pipesFIFOs/seqnum/fifo_seqnum_server.c`) does with one request after another, whoever
sends them. The server is the one of `Seqnum`, without signals. The rest of the world is not modelled: between any two
steps of the server it may change all that the processes share, except for the state file (`world`). So any requests
arrive, and every outcome of opening a client's FIFO and of writing a reply is possible.

Results:
- `law_step`: what one step keeps of the numbers handed out, `seqNum` and the state file;
- `server_law`: each reply carries the initial number plus the lengths of the requests opened before it, and at the head
  of the service loop a restarted server would go on from `seqNum`;
- `refused_run`: requests whose FIFO is not opened leave `seqNum` and the state file as they are.
-/
import OsPractice.PipesFifos.SeqnumLog

namespace OsPractice.Seqnum

open Interleave Pipe Bytes

/-! ## The server in any world -/

inductive Actor where
  | server
  | world
  deriving DecidableEq, Repr

/-- what becomes of a request -/
inductive Outcome (T : Type) where
  /-- the client's FIFO could not be opened -/
  | refused (req : Request T)
  | opened (req : Request T)
  /-- the reply carries `v`; `ok` tells whether it could be written -/
  | replied (req : Request T) (v : BitVec 32) (ok : Bool)
  deriving DecidableEq, Repr

variable {T : Type}

/-- what the step of the server from a point, with the events `es`, means for its request -/
def outcomes : ServerPc T → List (Event T) → List (Outcome T)
  | .openClient req, [] => [.opened req]
  | .openClient req, _ => [.refused req]
  | .writeReply req, [.replied _ v ok] => [.replied req v ok]
  | _, _ => []

def service (T : Type) [DecidableEq T] : Prog Actor (Shared T) (Shared T) (Server T × ServerPc T) (Outcome T) :=
  fun p c sh l =>
    match p with
    | .server => (server sh l.1 l.2).map fun r => (r.1.1, (r.1.2, r.2.1), outcomes l.2 r.2.2)
    | .world => some ({ c with initFile := sh.initFile }, l, [])

/-- the server is started in the world `sh` -/
def boot (sh : Shared T) : St Actor (Shared T) (Server T × ServerPc T) := ⟨sh, fun _ => (Server.fresh, .openInit)⟩

abbrev Service (T : Type) := St Actor (Shared T) (Server T × ServerPc T)

def Service.seqNum (s : Service T) : BitVec 32 := (s.loc .server).1.seqNum

/-- at the head of the service loop -/
def AtHead (s : Service T) : Prop := (s.loc .server).2 = .readReq

/-! ## The law -/

def openedReq : Outcome T → Option (Request T)
  | .opened req => some req
  | _ => none

def repliedReq : Outcome T → Option (Request T)
  | .replied req _ _ => some req
  | _ => none

/-- the requests whose FIFO could be opened -/
def opened (tr : List (Outcome T)) : List (Request T) := tr.filterMap openedReq

/-- the requests replied to, whether or not the reply was written -/
def repliedTo (tr : List (Outcome T)) : List (Request T) := tr.filterMap repliedReq

/-- the number that a server started with the state file `file` hands out after the requests `reqs` -/
def numAfter (file : List Byte) (reqs : List (Request T)) : Option (BitVec 32) :=
  (load file).map (· + (reqs.map Request.seqLen).sum)

/-- the start-up of a server with the state file `file` ends with `seqNum = n` -/
def StartsWith [DecidableEq T] (file : List Byte) (n : BitVec 32) : Prop :=
  ∀ sh : Shared T, sh.initFile = file → ∃ v v',
    server sh Server.fresh .openInit = some ((sh, v), .readInit, []) ∧
    server sh v .readInit = some ((sh, v'), .sigactionInt, []) ∧ v'.seqNum = n

/-- the numbers handed out and kept by a server that was started with the state file `file` -/
structure Law [DecidableEq T] (file : List Byte) (tr : List (Outcome T)) (s : Service T) : Prop where
  /-- a reply carries the first number plus the lengths of the requests opened before its own -/
  replies : ∀ pre req v ok post, tr = pre ++ .replied req v ok :: post →
    ∃ earlier, opened pre = earlier ++ [req] ∧ some v = numAfter file earlier
  /-- at the head of the loop `seqNum` counts all requests opened, and a restarted server goes on from it -/
  head : AtHead s → some s.seqNum = numAfter file (opened tr) ∧ StartsWith (T := T) s.sh.initFile s.seqNum

@[simp] theorem opened_append (tr es : List (Outcome T)) : opened (tr ++ es) = opened tr ++ opened es :=
  List.filterMap_append

@[simp] theorem repliedTo_append (tr es : List (Outcome T)) : repliedTo (tr ++ es) = repliedTo tr ++ repliedTo es :=
  List.filterMap_append

theorem numAfter_append (file : List Byte) (reqs : List (Request T)) (req : Request T) :
    numAfter file (reqs ++ [req]) = (numAfter file reqs).map (· + req.seqLen) := by
  simp [numAfter, Function.comp_def, BitVec.add_assoc]

variable [DecidableEq T]

/-- `load` is what the start-up reads -/
theorem startsWith_of_load {file : List Byte} {n : BitVec 32} (h : load file = some n) :
    StartsWith (T := T) file n := by
  intro sh hfile
  obtain ⟨k, hk⟩ := readInit_load sh { (Server.fresh : Server T) with offset := 0 } (by rw [hfile]; exact h) rfl
  exact ⟨_, _, rfl, hk, rfl⟩

/-! ## Steps -/

/-- the request whose FIFO is open and which has not been replied to -/
def inHand : ServerPc T → List (Request T)
  | .writeReply req => [req]
  | _ => []

theorem outcomes_cases {sh sh' : Shared T} {v v' : Server T} {pc pc' : ServerPc T} {es : List (Event T)}
    (h : server sh v pc = some ((sh', v'), pc', es)) :
    (∃ req ok, pc = .writeReply req ∧ es = [.replied req.pid v.seqNum ok] ∧ inHand pc' = []) ∨
    inHand pc = [] ∧ repliedTo (outcomes pc es) = [] ∧ opened (outcomes pc es) = inHand pc' := by
  cases server_cases h with
  | epipe => exact .inl ⟨_, false, rfl, rfl, rfl⟩
  | writeReply => exact .inl ⟨_, true, rfl, rfl, rfl⟩
  | _ => exact .inr ⟨rfl, rfl, rfl⟩

/-- the server's books: `seqNum` and the state file against the requests replied to -/
structure Books (file : List Byte) (tr : List (Outcome T)) (s : Service T) : Prop where
  counts : Counts (numAfter file (repliedTo tr)) s.sh.initFile (s.loc .server).1 (s.loc .server).2
  inHand : opened tr = repliedTo tr ++ inHand (s.loc .server).2
  replies : ∀ pre req v ok post, tr = pre ++ .replied req v ok :: post →
    ∃ earlier, opened pre = earlier ++ [req] ∧ some v = numAfter file earlier

theorem law_step {file : List Byte} {tr es : List (Outcome T)} {s : Service T} {p : Actor} {c sh : Shared T}
    {l : Server T × ServerPc T} (h : Books file tr s) (hs : service T p c s.sh (s.loc p) = some (sh, l, es)) :
    Books file (tr ++ es) (s.move p sh l) := by
  cases p with
  | world =>
    cases hs
    refine ⟨?_, ?_, by simpa using h.replies⟩
    · rw [St.move_loc_self, List.append_nil]
      exact h.counts
    · rw [St.move_loc_self, List.append_nil]
      exact h.inHand
  | server =>
    obtain ⟨⟨⟨sh', v'⟩, pc', es'⟩, hq, he⟩ := Option.map_eq_some_iff.1 hs
    cases he
    have hcounts := counts_step hq h.counts
    rcases outcomes_cases hq with ⟨req, ok, hpc, rfl, hnew⟩ | ⟨hold, hnone, hopen⟩
    · have hout : outcomes (s.loc .server).2 [.replied req.pid (s.loc .server).1.seqNum ok] =
          [.replied req (s.loc .server).1.seqNum ok] := by
        rw [hpc]
        rfl
      have hhand : opened tr = repliedTo tr ++ [req] := by
        have hi := h.inHand
        rwa [hpc] at hi
      obtain ⟨hnum, hc'⟩ : some (s.loc .server).1.seqNum = numAfter file (repliedTo tr) ∧
          Counts ((numAfter file (repliedTo tr)).map (· + req.seqLen)) sh'.initFile v' pc' := by
        rcases hcounts with ⟨req', ok', hpc', -, hnum, hc'⟩ | ⟨hno, -⟩
        · obtain rfl : req = req' := by
            rw [hpc] at hpc'
            exact ServerPc.writeReply.inj hpc'
          exact ⟨hnum, hc'⟩
        · cases hno
      rw [hout]
      refine ⟨?_, ?_, ?_⟩
      · simp only [St.move_sh, St.move_loc, Function.update_self, repliedTo_append]
        exact numAfter_append file (repliedTo tr) req ▸ hc'
      · simp only [St.move_loc, Function.update_self, hnew, opened_append, repliedTo_append, hhand, List.append_nil]
        simp [opened, openedReq, repliedTo, repliedReq]
      · intro pre r v ok' post he
        rcases split_append he with ⟨post', he'⟩ | ⟨pre', rfl, he'⟩
        · exact h.replies pre r v ok' post' he'
        · cases pre' with
          | nil =>
            cases he'
            exact ⟨repliedTo tr, by simpa using hhand, hnum⟩
          | cons a pre' => simp at he'
    · have hc' : Counts (numAfter file (repliedTo tr)) sh'.initFile v' pc' := by
        rcases hcounts with ⟨req, ok, hpc, -⟩ | ⟨-, hc'⟩
        · rw [hpc] at hold
          cases hold
        · exact hc'
      refine ⟨?_, ?_, ?_⟩
      · simp only [St.move_sh, St.move_loc, Function.update_self, repliedTo_append, hnone, List.append_nil]
        exact hc'
      · simp only [St.move_loc, Function.update_self, opened_append, repliedTo_append, hnone, hopen, List.append_nil]
        rw [h.inHand, hold, List.append_nil]
      · intro pre r v ok post he
        rcases split_append he with ⟨post', he'⟩ | ⟨pre', rfl, he'⟩
        · exact h.replies pre r v ok post' he'
        · -- a step that replies to nothing has no reply among its events
          have hmem : r ∈ repliedTo (outcomes (s.loc .server).2 es') := by
            rw [he']
            simp [repliedTo, repliedReq]
          rw [hnone] at hmem
          cases hmem

theorem run_books {sh₀ : Shared T} {as : List (Actor × Shared T)} {tr : List (Outcome T)} {s : Service T}
    (h : Run (service T) (boot sh₀) as tr s) : Books sh₀.initFile tr s := by
  refine h.inv_trace (I := Books sh₀.initFile) ?_ fun tr s p c sh l es hb hs => law_step hb hs
  refine ⟨?_, rfl, ?_⟩
  · simp [Counts, boot, numAfter, repliedTo]
  · intro pre req v ok post he
    simp at he

theorem Books.law {file : List Byte} {tr : List (Outcome T)} {s : Service T} (h : Books file tr s) : Law file tr s := by
  refine ⟨h.replies, ?_⟩
  intro hhead
  have hc := h.counts
  have hi := h.inHand
  rw [AtHead] at hhead
  rw [hhead] at hc hi
  obtain ⟨hload, hnum⟩ := hc
  rw [hi.trans (List.append_nil _)]
  exact ⟨hnum, startsWith_of_load (hload.trans hnum.symm)⟩

/-! ## Requests that are refused -/

/-- nothing has changed since the head of the loop, where `seqNum` was `n` and the state file `file` -/
structure Untouched (n : BitVec 32) (file : List Byte) (s : Service T) : Prop where
  before : AtHead s ∨ ∃ req, (s.loc .server).2 = .openClient req
  seqNum : s.seqNum = n
  initFile : s.sh.initFile = file

theorem untouched_step {n : BitVec 32} {file : List Byte} {es : List (Outcome T)} {s : Service T} {p : Actor}
    {c sh : Shared T} {l : Server T × ServerPc T} (h : Untouched n file s)
    (hs : service T p c s.sh (s.loc p) = some (sh, l, es)) :
    (∃ req, .opened req ∈ es) ∨ Untouched n file (s.move p sh l) := by
  cases p with
  | world =>
    cases hs
    refine .inr ⟨?_, ?_, h.initFile⟩
    · rw [AtHead, St.move_loc_self]
      exact h.before
    · rw [Service.seqNum, St.move_loc_self]
      exact h.seqNum
  | server =>
    obtain ⟨⟨⟨sh', v'⟩, pc', es'⟩, hq, he⟩ := Option.map_eq_some_iff.1 hs
    cases he
    have hn := h.seqNum
    have hf := h.initFile
    have hb := h.before
    rw [Service.seqNum] at hn
    rw [AtHead] at hb
    have hstep := server_cases hq
    generalize s.loc .server = l₀ at hstep hn hb
    generalize s.sh = sh₀ at hstep hf
    obtain ⟨v, pc⟩ := l₀
    have hpc : pc = .readReq ∨ ∃ req, pc = .openClient req := hb
    cases hstep with
    | noReq => exact .inr ⟨.inl (by simp [AtHead]), by simpa [Service.seqNum] using hn, hf⟩
    | @readReq id req data hd hr => exact .inr ⟨.inr ⟨req, by simp⟩, by simpa [Service.seqNum] using hn, hf⟩
    | discard => exact .inr ⟨.inl (by simp [AtHead]), by simpa [Service.seqNum] using hn, hf⟩
    | openClient => exact .inl ⟨_, List.mem_singleton.2 rfl⟩
    | _ => simp at hpc

theorem refused_run {s s' : Service T} {as : List (Actor × Shared T)} {tr : List (Outcome T)}
    (h : Run (service T) s as tr s') (hs : AtHead s) (hno : ∀ req, .opened req ∉ tr) :
    s'.seqNum = s.seqNum ∧ s'.sh.initFile = s.sh.initFile := by
  have hinv := h.inv_trace (I := fun tr s' => (∃ req, .opened req ∈ tr) ∨ Untouched s.seqNum s.sh.initFile s')
    (.inr ⟨.inl hs, rfl, rfl⟩) ?_
  · rcases hinv with ⟨req, hreq⟩ | hu
    · exact absurd hreq (hno req)
    · exact ⟨hu.seqNum, hu.initFile⟩
  · intro tr u p c sh l es hi hstep
    rcases hi with ⟨req, hreq⟩ | hu
    · exact .inl ⟨req, List.mem_append_left _ hreq⟩
    · rcases untouched_step hu hstep with ⟨req, hreq⟩ | hu'
      · exact .inl ⟨req, List.mem_append_right _ hreq⟩
      · exact .inr hu'

/-! ## The result -/

/-- **The state law of the server.** In every run, whatever requests arrive and whichever FIFOs can be opened and
written: the replies and the state file follow the law, and as long as no FIFO is opened, from the head of the loop on,
requests change neither `seqNum` nor the state file. -/
theorem server_law (sh₀ : Shared T) {as : List (Actor × Shared T)} {tr : List (Outcome T)} {s : Service T}
    (h : Run (service T) (boot sh₀) as tr s) :
    Law sh₀.initFile tr s ∧ ∀ as' tr' (s' : Service T), Run (service T) s as' tr' s' → AtHead s →
      (∀ req, .opened req ∉ tr') → s'.seqNum = s.seqNum ∧ s'.sh.initFile = s.sh.initFile :=
  ⟨(run_books h).law, fun _ _ _ h' hs hno => refused_run h' hs hno⟩

/-- three requests are waiting; client 1 has no FIFO -/
def waiting : Shared (Fin 2) where
  initFile := []
  serverPath := some 0
  serverFifos _ := ⟨0, 1, 0, 1, [⟨0, 5⟩, ⟨1, 7⟩, ⟨0, 2⟩]⟩
  made := 1
  clientPath t := t == 0
  clientFifo _ := ⟨1, 0, 1, 0, []⟩

theorem server_law_three : ∃ s : Service (Fin 2), ∃ tr as, Run (service (Fin 2)) (boot waiting) as tr s ∧
    tr = [.opened ⟨0, 5⟩, .replied ⟨0, 5⟩ 0 true, .refused ⟨1, 7⟩, .opened ⟨0, 2⟩, .replied ⟨0, 2⟩ 5 true] ∧
    AtHead s ∧ Law waiting.initFile tr s := by
  obtain ⟨s, tr, h, htr, hhead⟩ := exec_any_run (service (Fin 2)) (boot waiting)
    (List.replicate 26 (.server, waiting))
    (fun s tr => tr = [.opened ⟨0, 5⟩, .replied ⟨0, 5⟩ 0 true, .refused ⟨1, 7⟩, .opened ⟨0, 2⟩,
        .replied ⟨0, 2⟩ 5 true] ∧ (s.loc .server).2 = .readReq) (by decide +kernel)
  exact ⟨s, tr, _, h, htr, hhead, (server_law waiting h).1⟩

end OsPractice.Seqnum
