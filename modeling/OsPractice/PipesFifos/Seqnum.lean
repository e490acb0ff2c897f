/-
The sequence-number server and its clients (`pipesFIFOs/seqnum`). A client makes a FIFO named after its process id, sends
a request through the server's FIFO, opens its own FIFO and reads the number that the server has written there. The
server keeps the next number in a file, so that a server started later goes on from it.

Every system call is one step, and so is a blocking open twice: it enters, and it returns. A client is known by its
process id (type `T`; no two clients have the same). SIGINT and SIGTERM reach the server between any two steps; what a
handler is not installed for ends the process. A server that has ended can be started again.

An `int` is a `BitVec 32`, with an addition that wraps. Calls that fail only for want of memory or disk, or because the
files are tampered with, succeed here. `umask`, `snprintf` and the calls on `stderr` have no effect that is modelled.

What a step of the client and of the server can do is said once, with the guards (`client_cases`, `server_cases`); the
invariants are read off from that.
-/
import OsPractice.Core.Interleave
import OsPractice.Core.Pipe
import OsPractice.Core.Bytes
import OsPractice.Core.Decimal

namespace OsPractice.Seqnum

open Interleave Pipe Bytes Decimal

/-! ## What the processes share -/

/-- `struct request` -/
structure Request (T : Type) where
  pid : T
  seqLen : BitVec 32
  deriving DecidableEq, Repr

structure Shared (T : Type) where
  /-- the content of SERVER_INIT_FILE, empty if there is no such file -/
  initFile : List Byte
  /-- the FIFO that SERVER_FIFO names -/
  serverPath : Option ℕ
  /-- the FIFOs that servers have made, with or without a name -/
  serverFifos : ℕ → Fifo (Request T)
  made : ℕ
  /-- the clients whose FIFO has its name -/
  clientPath : T → Bool
  clientFifo : T → Fifo (BitVec 32)

variable {T : Type}

def Shared.setServer (sh : Shared T) (id : ℕ) (f : Fifo (Request T)) : Shared T :=
  { sh with serverFifos := Function.update sh.serverFifos id f }

def Shared.setClient [DecidableEq T] (sh : Shared T) (t : T) (f : Fifo (BitVec 32)) : Shared T :=
  { sh with clientFifo := Function.update sh.clientFifo t f }

section Shared

variable (sh : Shared T) (id : ℕ) (f : Fifo (Request T))

@[simp] theorem setServer_self : (sh.setServer id f).serverFifos id = f := Function.update_self _ _ _

theorem setServer_of_ne {id' : ℕ} (h : id' ≠ id) : (sh.setServer id f).serverFifos id' = sh.serverFifos id' :=
  Function.update_of_ne h _ _

@[simp] theorem setServer_initFile : (sh.setServer id f).initFile = sh.initFile := rfl

@[simp] theorem setServer_serverPath : (sh.setServer id f).serverPath = sh.serverPath := rfl

@[simp] theorem setServer_clientFifo : (sh.setServer id f).clientFifo = sh.clientFifo := rfl

@[simp] theorem setServer_clientPath : (sh.setServer id f).clientPath = sh.clientPath := rfl

variable [DecidableEq T] (t : T) (g : Fifo (BitVec 32))

@[simp] theorem setClient_self : (sh.setClient t g).clientFifo t = g := Function.update_self _ _ _

theorem setClient_of_ne {t' : T} (h : t' ≠ t) : (sh.setClient t g).clientFifo t' = sh.clientFifo t' :=
  Function.update_of_ne h _ _

/-- what is true of every FIFO and itself, and of the new one and the old one, is true of all FIFOs after and before -/
theorem setClient_rel {R : Fifo (BitVec 32) → Fifo (BitVec 32) → Prop} (hr : ∀ f, R f f) {t : T} {g : Fifo (BitVec 32)}
    (h : R g (sh.clientFifo t)) (u : T) : R ((sh.setClient t g).clientFifo u) (sh.clientFifo u) := by
  by_cases hu : u = t
  · subst hu
    rwa [setClient_self]
  · rw [setClient_of_ne _ _ _ hu]
    exact hr _

@[simp] theorem setClient_initFile : (sh.setClient t g).initFile = sh.initFile := rfl

@[simp] theorem setClient_serverPath : (sh.setClient t g).serverPath = sh.serverPath := rfl

@[simp] theorem setClient_serverFifos : (sh.setClient t g).serverFifos = sh.serverFifos := rfl

@[simp] theorem setClient_clientPath : (sh.setClient t g).clientPath = sh.clientPath := rfl

end Shared

inductive Event (T : Type) where
  /-- the server has read the request of this client -/
  | received (t : T)
  /-- the server could not open the client's FIFO -/
  | discarded (t : T)
  /-- the server has replied with `v`; `ok` tells whether the reply could be written -/
  | replied (t : T) (v : BitVec 32) (ok : Bool)
  /-- the client has printed its number -/
  | printed (t : T) (v : BitVec 32)
  deriving DecidableEq, Repr

/-! ## The client -/

/-- points of the client. `id` is the server's FIFO it has opened; it ends with the descriptors `sv` and `cl` open -/
inductive ClientPc where
  | start
  | mkfifo
  | openServer
  | openServerWait (id opens : ℕ)
  | writeReq (id : ℕ)
  | openClient (id : ℕ)
  | openClientWait (id opens : ℕ)
  | readResp (id : ℕ)
  | closeServer (id : ℕ) (v : BitVec 32)
  | closeClient (v : BitVec 32)
  | print (v : BitVec 32)
  | removeFifo (sv : Option ℕ) (cl : Bool)
  | terminate (sv : Option ℕ) (cl : Bool)
  | ended
  deriving DecidableEq, Repr

/-- `req.seqLen`, from the first argument if there is one -/
def seqLen : Option (List Byte) → BitVec 32
  | none => 1
  | some arg =>
    let (v, errno) := atoi arg
    if v = 0 ∧ errno then 1 else v

/-- the program prints its usage and ends -/
def asksHelp (arg : Option (List Byte)) : Prop := arg = some (text "--help")

instance (arg : Option (List Byte)) : Decidable (asksHelp arg) := inferInstanceAs (Decidable (arg = _))

variable [DecidableEq T]

/-- the client `t`, started with the argument `arg` -/
def client (t : T) (arg : Option (List Byte)) (sh : Shared T) :
    ClientPc → Option (Shared T × ClientPc × List (Event T))
  | .start => if asksHelp arg then some (sh, .ended, []) else some (sh, .mkfifo, [])
  | .mkfifo => some ({ sh with clientPath := Function.update sh.clientPath t true }, .openServer, [])
  | .openServer =>
    match sh.serverPath with
    | none => some (sh, .removeFifo none false, [])
    | some id =>
      let f := sh.serverFifos id
      if f.readers = 0 then some (sh.setServer id (openWrite f), .openServerWait id f.rOpens, [])
      else some (sh.setServer id (openWrite f), .writeReq id, [])
  | .openServerWait id opens => if (sh.serverFifos id).rOpens = opens then none else some (sh, .writeReq id, [])
  | .writeReq id =>
    match write ⟨t, seqLen arg⟩ (sh.serverFifos id) with
    | none => some (sh, .terminate (some id) false, []) -- SIGPIPE
    | some f => some (sh.setServer id f, .openClient id, [])
  | .openClient id =>
    let f := sh.clientFifo t
    if f.writers = 0 then some (sh.setClient t (openRead f), .openClientWait id f.wOpens, [])
    else some (sh.setClient t (openRead f), .readResp id, [])
  | .openClientWait id opens => if (sh.clientFifo t).wOpens = opens then none else some (sh, .readResp id, [])
  | .readResp id =>
    match read (sh.clientFifo t) with
    | none => none
    | some (_, none) => some (sh, .removeFifo (some id) true, [])
    | some (f, some v) => some (sh.setClient t f, .closeServer id v, [])
  | .closeServer id v => some (sh.setServer id (closeWrite (sh.serverFifos id)), .closeClient v, [])
  | .closeClient v => some (sh.setClient t (closeRead (sh.clientFifo t)), .print v, [])
  | .print v => some (sh, .removeFifo none false, [.printed t v])
  | .removeFifo sv cl => some ({ sh with clientPath := Function.update sh.clientPath t false }, .terminate sv cl, [])
  | .terminate sv cl =>
    let sh := match sv with
      | none => sh
      | some id => sh.setServer id (closeWrite (sh.serverFifos id))
    some (if cl then sh.setClient t (closeRead (sh.clientFifo t)) else sh, .ended, [])
  | .ended => none

/-! ## The server -/

inductive Signal where
  | int
  | term
  deriving DecidableEq, Repr

/-- the variables of the server; a descriptor is the FIFO that it is open on -/
structure Server (T : Type) where
  /-- the offset of `initFileFd` -/
  offset : ℕ
  seqNum : BitVec 32
  serverFd : Option ℕ
  dummyFd : Option ℕ
  clientFd : Option T
  /-- the signals that `sigHandler` is installed for -/
  handled : List Signal

def Server.fresh {T : Type} : Server T := ⟨0, 0, none, none, none, []⟩

/-- points of `sigHandler` -/
inductive HandlerPc where
  | bye
  | closeServer
  | closeDummy
  | unlink
  deriving DecidableEq, Repr

inductive ServerPc (T : Type) where
  | openInit
  | readInit
  | sigactionInt
  | sigactionTerm
  | mkfifo
  | openServer
  | openServerWait (id opens : ℕ)
  | openDummy
  | ignoreSigpipe
  | readReq
  | openClient (req : Request T)
  | writeReply (req : Request T)
  | closeClient (req : Request T)
  | addSeqLen (req : Request T)
  | truncate
  | seek
  | writeInit
  /-- in `sigHandler`, with the signals `blocked` that it has been called for -/
  | handler (blocked : List Signal) (p : HandlerPc)
  | terminate
  | ended
  deriving DecidableEq, Repr

def closeServerFd (sh : Shared T) (v : Server T) : Shared T × Server T :=
  match v.serverFd with
  | none => (sh, v)
  | some id => (sh.setServer id (closeRead (sh.serverFifos id)), { v with serverFd := none })

def closeDummyFd (sh : Shared T) (v : Server T) : Shared T × Server T :=
  match v.dummyFd with
  | none => (sh, v)
  | some id => (sh.setServer id (closeWrite (sh.serverFifos id)), { v with dummyFd := none })

def closeClientFd (sh : Shared T) (v : Server T) : Shared T × Server T :=
  match v.clientFd with
  | none => (sh, v)
  | some t => (sh.setClient t (closeWrite (sh.clientFifo t)), { v with clientFd := none })

/-- what the kernel closes when the process ends -/
def closeAll (sh : Shared T) (v : Server T) : Shared T × Server T :=
  let r := closeServerFd sh v
  let r := closeDummyFd r.1 r.2
  closeClientFd r.1 r.2

/-- `sigHandler`, up to `_exit` -/
def sigHandler (sh : Shared T) (v : Server T) : HandlerPc → (Shared T × Server T) × Option HandlerPc
  | .bye => ((sh, v), some .closeServer)
  | .closeServer => (closeServerFd sh v, some .closeDummy)
  | .closeDummy => (closeDummyFd sh v, some .unlink)
  | .unlink => (({ sh with serverPath := none }, v), none)

/-- the server of one run of the program, without signals -/
def server (sh : Shared T) (v : Server T) : ServerPc T → Option ((Shared T × Server T) × ServerPc T × List (Event T))
  | .openInit => some ((sh, { v with offset := 0 }), .readInit, [])
  | .readInit =>
    let bs := readAt sh.initFile v.offset intSize
    let v := { v with offset := v.offset + bs.length }
    if bs.length = 0 then some ((sh, { v with seqNum := 0 }), .sigactionInt, [])
    else if bs.length = intSize then some ((sh, { v with seqNum := decode bs }), .sigactionInt, [])
    else some ((sh, v), .terminate, [])
  | .sigactionInt => some ((sh, { v with handled := .int :: v.handled }), .sigactionTerm, [])
  | .sigactionTerm => some ((sh, { v with handled := .term :: v.handled }), .mkfifo, [])
  | .mkfifo =>
    match sh.serverPath with
    | none =>
      some (({ sh.setServer sh.made Pipe.fresh with serverPath := some sh.made, made := sh.made + 1 }, v),
        .openServer, [])
    | some _ => some ((sh, v), .openServer, []) -- EEXIST
  | .openServer =>
    match sh.serverPath with
    | none => some ((sh, v), .terminate, [])
    | some id =>
      let f := sh.serverFifos id
      if f.writers = 0 then some ((sh.setServer id (openRead f), v), .openServerWait id f.wOpens, [])
      else some ((sh.setServer id (openRead f), { v with serverFd := some id }), .openDummy, [])
  | .openServerWait id opens =>
    if (sh.serverFifos id).wOpens = opens then none else some ((sh, { v with serverFd := some id }), .openDummy, [])
  | .openDummy =>
    match sh.serverPath with
    | none => some ((sh, v), .terminate, [])
    | some id =>
      -- the server itself has it open for reading
      if (sh.serverFifos id).readers = 0 then none
      else some ((sh.setServer id (openWrite (sh.serverFifos id)), { v with dummyFd := some id }), .ignoreSigpipe, [])
  | .ignoreSigpipe => some ((sh, v), .readReq, [])
  | .readReq =>
    match v.serverFd with
    | none => some ((sh, v), .readReq, [])
    | some id =>
      match read (sh.serverFifos id) with
      | none => none
      | some (_, none) => some ((sh, v), .readReq, [])
      | some (f, some req) => some ((sh.setServer id f, v), .openClient req, [.received req.pid])
  | .openClient req =>
    if sh.clientPath req.pid then
      match openWriteNonblock (sh.clientFifo req.pid) with
      | none => some ((sh, v), .readReq, [.discarded req.pid]) -- ENXIO
      | some f => some ((sh.setClient req.pid f, { v with clientFd := some req.pid }), .writeReply req, [])
    else some ((sh, v), .readReq, [.discarded req.pid])
  | .writeReply req =>
    match write v.seqNum (sh.clientFifo req.pid) with
    | none => some ((sh, v), .closeClient req, [.replied req.pid v.seqNum false]) -- EPIPE
    | some f => some ((sh.setClient req.pid f, v), .closeClient req, [.replied req.pid v.seqNum true])
  | .closeClient req => some (closeClientFd sh v, .addSeqLen req, [])
  | .addSeqLen req => some ((sh, { v with seqNum := v.seqNum + req.seqLen }), .truncate, [])
  | .truncate => some (({ sh with initFile := [] }, v), .seek, [])
  | .seek => some ((sh, { v with offset := 0 }), .writeInit, [])
  | .writeInit =>
    some (({ sh with initFile := writeAt sh.initFile v.offset (encode v.seqNum) },
      { v with offset := v.offset + intSize }), .readReq, [])
  | .handler blocked p =>
    let (r, p) := sigHandler sh v p
    some (r, match p with
      | some p => .handler blocked p
      | none => .terminate, [])
  | .terminate => some (closeAll sh v, .ended, [])
  | .ended => some ((sh, Server.fresh), .openInit, []) -- started again

/-- what a signal leads to, with the signals `blocked` -/
def action {T : Type} (sig : Signal) (v : Server T) (blocked : List Signal) : ServerPc T :=
  if sig ∈ v.handled then .handler (sig :: blocked) .bye else .terminate

/-- a signal reaches the server; an open that waits is given up -/
def signal {T : Type} (sig : Signal) (sh : Shared T) (v : Server T) : ServerPc T → Option (Shared T × ServerPc T)
  | .terminate | .ended => none
  | .handler blocked _ => if sig ∈ blocked then none else some (sh, action sig v blocked)
  | .openServerWait id _ => some (sh.setServer id (closeRead (sh.serverFifos id)), action sig v [])
  | _ => some (sh, action sig v [])

/-! ## The system -/

inductive Proc (T : Type) where
  | server
  | client (t : T)
  deriving DecidableEq, Repr

inductive Choice where
  | step
  | signal (sig : Signal)
  deriving DecidableEq, Repr

inductive Loc (T : Type) where
  | server (v : Server T) (p : ServerPc T)
  | client (p : ClientPc)

/-- the server, and clients started with the arguments `args` -/
def prog (args : T → Option (List Byte)) : Prog (Proc T) Choice (Shared T) (Loc T) (Event T) := fun p c sh l =>
  match p, c, l with
  | .server, .step, .server v p => (server sh v p).map fun r => (r.1.1, .server r.1.2 r.2.1, r.2.2)
  | .server, .signal sig, .server v p => (signal sig sh v p).map fun r => (r.1, .server v r.2, [])
  | .client t, .step, .client p => (client t (args t) sh p).map fun r => (r.1, .client r.2.1, r.2.2)
  | _, _, _ => none

/-- nothing has been started, and SERVER_INIT_FILE has the content `file` -/
def start (file : List Byte) : St (Proc T) (Shared T) (Loc T) where
  sh := ⟨file, none, fun _ => Pipe.fresh, 0, fun _ => false, fun _ => Pipe.fresh⟩
  loc
    | .server => .server Server.fresh .openInit
    | .client _ => .client .start

/-- a step of the system: of a client, of the server, or a signal -/
theorem prog_step {args : T → Option (List Byte)} {p : Proc T} {c : Choice} {sh sh' : Shared T} {l l' : Loc T}
    {es : List (Event T)} (h : prog args p c sh l = some (sh', l', es)) :
    (∃ t pc pc', p = .client t ∧ c = .step ∧ l = .client pc ∧ l' = .client pc' ∧
      client t (args t) sh pc = some (sh', pc', es)) ∨
    (∃ v pc v' pc', p = .server ∧ c = .step ∧ l = .server v pc ∧ l' = .server v' pc' ∧
      server sh v pc = some ((sh', v'), pc', es)) ∨
    ∃ sig v pc pc', p = .server ∧ c = .signal sig ∧ l = .server v pc ∧ l' = .server v pc' ∧ es = [] ∧
      signal sig sh v pc = some (sh', pc') := by
  rcases p with _ | t
  · rcases l with ⟨v, pc⟩ | pc
    · rcases c with _ | sig
      · obtain ⟨⟨⟨sh'', v'⟩, pc', es'⟩, hs, he⟩ := Option.map_eq_some_iff.1 h
        cases he
        exact .inr (.inl ⟨v, pc, v', pc', rfl, rfl, rfl, rfl, hs⟩)
      · obtain ⟨⟨sh'', pc'⟩, hs, he⟩ := Option.map_eq_some_iff.1 h
        cases he
        exact .inr (.inr ⟨sig, v, pc, pc', rfl, rfl, rfl, rfl, rfl, hs⟩)
    · rcases c with _ | _ <;> cases h
  · rcases l with ⟨v, pc⟩ | pc
    · rcases c with _ | _ <;> cases h
    · rcases c with _ | _
      · obtain ⟨⟨sh'', pc', es'⟩, hs, he⟩ := Option.map_eq_some_iff.1 h
        cases he
        exact .inl ⟨t, pc, pc', rfl, rfl, rfl, rfl, hs⟩
      · cases h

/-! ## What a step can do -/

/-- the steps of the client `t` -/
inductive ClientStep (t : T) (arg : Option (List Byte)) (sh : Shared T) :
    ClientPc → Shared T → ClientPc → List (Event T) → Prop where
  | help (h : asksHelp arg) : ClientStep t arg sh .start sh .ended []
  | start (h : ¬ asksHelp arg) : ClientStep t arg sh .start sh .mkfifo []
  | mkfifo :
    ClientStep t arg sh .mkfifo { sh with clientPath := Function.update sh.clientPath t true } .openServer []
  | noServer (h : sh.serverPath = none) : ClientStep t arg sh .openServer sh (.removeFifo none false) []
  | openServerWait {id : ℕ} (h : sh.serverPath = some id) (hr : (sh.serverFifos id).readers = 0) :
    ClientStep t arg sh .openServer (sh.setServer id (openWrite (sh.serverFifos id)))
      (.openServerWait id (sh.serverFifos id).rOpens) []
  | openServer {id : ℕ} (h : sh.serverPath = some id) (hr : (sh.serverFifos id).readers ≠ 0) :
    ClientStep t arg sh .openServer (sh.setServer id (openWrite (sh.serverFifos id))) (.writeReq id) []
  | serverOpened {id opens : ℕ} (h : (sh.serverFifos id).rOpens ≠ opens) :
    ClientStep t arg sh (.openServerWait id opens) sh (.writeReq id) []
  | sigpipe {id : ℕ} (h : (sh.serverFifos id).readers = 0) :
    ClientStep t arg sh (.writeReq id) sh (.terminate (some id) false) []
  | writeReq {id : ℕ} (h : (sh.serverFifos id).readers ≠ 0) :
    ClientStep t arg sh (.writeReq id)
      (sh.setServer id { sh.serverFifos id with data := (sh.serverFifos id).data ++ [⟨t, seqLen arg⟩] })
      (.openClient id) []
  | openClientWait {id : ℕ} (h : (sh.clientFifo t).writers = 0) :
    ClientStep t arg sh (.openClient id) (sh.setClient t (openRead (sh.clientFifo t)))
      (.openClientWait id (sh.clientFifo t).wOpens) []
  | openClient {id : ℕ} (h : (sh.clientFifo t).writers ≠ 0) :
    ClientStep t arg sh (.openClient id) (sh.setClient t (openRead (sh.clientFifo t))) (.readResp id) []
  | clientOpened {id opens : ℕ} (h : (sh.clientFifo t).wOpens ≠ opens) :
    ClientStep t arg sh (.openClientWait id opens) sh (.readResp id) []
  | noResp {id : ℕ} (h : (sh.clientFifo t).data = []) (hw : (sh.clientFifo t).writers = 0) :
    ClientStep t arg sh (.readResp id) sh (.removeFifo (some id) true) []
  | readResp {id : ℕ} {v : BitVec 32} {data : List (BitVec 32)} (h : (sh.clientFifo t).data = v :: data) :
    ClientStep t arg sh (.readResp id) (sh.setClient t { sh.clientFifo t with data := data }) (.closeServer id v) []
  | closeServer {id : ℕ} {v : BitVec 32} :
    ClientStep t arg sh (.closeServer id v) (sh.setServer id (closeWrite (sh.serverFifos id))) (.closeClient v) []
  | closeClient {v : BitVec 32} :
    ClientStep t arg sh (.closeClient v) (sh.setClient t (closeRead (sh.clientFifo t))) (.print v) []
  | print {v : BitVec 32} : ClientStep t arg sh (.print v) sh (.removeFifo none false) [.printed t v]
  | removeFifo {sv : Option ℕ} {cl : Bool} :
    ClientStep t arg sh (.removeFifo sv cl) { sh with clientPath := Function.update sh.clientPath t false }
      (.terminate sv cl) []
  | exit : ClientStep t arg sh (.terminate none false) sh .ended []
  | exitClient :
    ClientStep t arg sh (.terminate none true) (sh.setClient t (closeRead (sh.clientFifo t))) .ended []
  | exitServer {id : ℕ} :
    ClientStep t arg sh (.terminate (some id) false) (sh.setServer id (closeWrite (sh.serverFifos id))) .ended []
  | exitBoth {id : ℕ} :
    ClientStep t arg sh (.terminate (some id) true)
      ((sh.setServer id (closeWrite (sh.serverFifos id))).setClient t (closeRead (sh.clientFifo t))) .ended []

variable {sh sh' : Shared T} {es : List (Event T)}

theorem client_cases {t : T} {arg : Option (List Byte)} {pc pc' : ClientPc}
    (h : client t arg sh pc = some (sh', pc', es)) : ClientStep t arg sh pc sh' pc' es := by
  rcases pc with _ | _ | _ | ⟨id, w⟩ | id | id | ⟨id, w⟩ | id | ⟨id, v⟩ | v | v | ⟨sv, cl⟩ | ⟨sv, cl⟩ | _
  case start =>
    simp only [client] at h
    split_ifs at h with hh <;> cases h
    · exact .help hh
    · exact .start hh
  case mkfifo =>
    cases h
    exact .mkfifo
  case openServer =>
    simp only [client] at h
    split at h
    · rename_i hp
      cases h
      exact .noServer hp
    · rename_i id hp
      split_ifs at h with hr <;> cases h
      · exact .openServerWait hp hr
      · exact .openServer hp hr
  case openServerWait =>
    simp only [client] at h
    split_ifs at h with ho
    cases h
    exact .serverOpened ho
  case writeReq =>
    simp only [client, write] at h
    split_ifs at h with hr <;> cases h
    · exact .sigpipe hr
    · exact .writeReq hr
  case openClient =>
    simp only [client] at h
    split_ifs at h with hw <;> cases h
    · exact .openClientWait hw
    · exact .openClient hw
  case openClientWait =>
    simp only [client] at h
    split_ifs at h with ho
    cases h
    exact .clientOpened ho
  case readResp =>
    simp only [client] at h
    split at h
    · cases h
    · rename_i hr
      cases h
      rcases read_eq_some hr with ⟨x, data, -, hx, -⟩ | ⟨hd, hw, -, -⟩
      · cases hx
      · exact .noResp hd hw
    · rename_i f v hr
      cases h
      rcases read_eq_some hr with ⟨x, data, hd, hx, rfl⟩ | ⟨-, -, hx, -⟩ <;> cases hx
      exact .readResp hd
  case closeServer =>
    cases h
    exact .closeServer
  case closeClient =>
    cases h
    exact .closeClient
  case print =>
    cases h
    exact .print
  case removeFifo =>
    cases h
    exact .removeFifo
  case terminate =>
    rcases sv with _ | id <;> rcases cl with _ | _ <;> cases h
    · exact .exit
    · exact .exitClient
    · exact .exitServer
    · exact .exitBoth
  case ended => cases h

/-- the steps of the server, without signals -/
inductive ServerStep (sh : Shared T) (v : Server T) :
    ServerPc T → Shared T → Server T → ServerPc T → List (Event T) → Prop where
  | openInit : ServerStep sh v .openInit sh { v with offset := 0 } .readInit []
  | readInit {bs : List Byte} {n : BitVec 32} (hb : readAt sh.initFile v.offset intSize = bs)
      (hn : bs.length = 0 ∧ n = 0 ∨ bs.length = intSize ∧ n = decode bs) :
    ServerStep sh v .readInit sh { v with offset := v.offset + bs.length, seqNum := n } .sigactionInt []
  | readShort {bs : List Byte} (hb : readAt sh.initFile v.offset intSize = bs) (h0 : bs.length ≠ 0)
      (hn : bs.length ≠ intSize) :
    ServerStep sh v .readInit sh { v with offset := v.offset + bs.length } .terminate []
  | sigactionInt : ServerStep sh v .sigactionInt sh { v with handled := .int :: v.handled } .sigactionTerm []
  | sigactionTerm : ServerStep sh v .sigactionTerm sh { v with handled := .term :: v.handled } .mkfifo []
  | mkfifo (h : sh.serverPath = none) :
    ServerStep sh v .mkfifo
      { sh.setServer sh.made Pipe.fresh with serverPath := some sh.made, made := sh.made + 1 } v .openServer []
  | mkfifoExists {id : ℕ} (h : sh.serverPath = some id) : ServerStep sh v .mkfifo sh v .openServer []
  | noFifo (h : sh.serverPath = none) : ServerStep sh v .openServer sh v .terminate []
  | openServerWait {id : ℕ} (h : sh.serverPath = some id) (hw : (sh.serverFifos id).writers = 0) :
    ServerStep sh v .openServer (sh.setServer id (openRead (sh.serverFifos id))) v
      (.openServerWait id (sh.serverFifos id).wOpens) []
  | openServer {id : ℕ} (h : sh.serverPath = some id) (hw : (sh.serverFifos id).writers ≠ 0) :
    ServerStep sh v .openServer (sh.setServer id (openRead (sh.serverFifos id))) { v with serverFd := some id }
      .openDummy []
  | serverOpened {id opens : ℕ} (h : (sh.serverFifos id).wOpens ≠ opens) :
    ServerStep sh v (.openServerWait id opens) sh { v with serverFd := some id } .openDummy []
  | noDummy (h : sh.serverPath = none) : ServerStep sh v .openDummy sh v .terminate []
  | openDummy {id : ℕ} (h : sh.serverPath = some id) (hr : (sh.serverFifos id).readers ≠ 0) :
    ServerStep sh v .openDummy (sh.setServer id (openWrite (sh.serverFifos id))) { v with dummyFd := some id }
      .ignoreSigpipe []
  | ignoreSigpipe : ServerStep sh v .ignoreSigpipe sh v .readReq []
  | noReq (h : ∀ id, v.serverFd = some id → (sh.serverFifos id).data = [] ∧ (sh.serverFifos id).writers = 0) :
    ServerStep sh v .readReq sh v .readReq []
  | readReq {id : ℕ} {req : Request T} {data : List (Request T)} (h : v.serverFd = some id)
      (hd : (sh.serverFifos id).data = req :: data) :
    ServerStep sh v .readReq (sh.setServer id { sh.serverFifos id with data := data }) v (.openClient req)
      [.received req.pid]
  | discard {req : Request T} (h : sh.clientPath req.pid = false ∨ (sh.clientFifo req.pid).readers = 0) :
    ServerStep sh v (.openClient req) sh v .readReq [.discarded req.pid]
  | openClient {req : Request T} (h : sh.clientPath req.pid = true) (hr : (sh.clientFifo req.pid).readers ≠ 0) :
    ServerStep sh v (.openClient req) (sh.setClient req.pid (openWrite (sh.clientFifo req.pid)))
      { v with clientFd := some req.pid } (.writeReply req) []
  | epipe {req : Request T} (h : (sh.clientFifo req.pid).readers = 0) :
    ServerStep sh v (.writeReply req) sh v (.closeClient req) [.replied req.pid v.seqNum false]
  | writeReply {req : Request T} (h : (sh.clientFifo req.pid).readers ≠ 0) :
    ServerStep sh v (.writeReply req)
      (sh.setClient req.pid { sh.clientFifo req.pid with data := (sh.clientFifo req.pid).data ++ [v.seqNum] }) v
      (.closeClient req) [.replied req.pid v.seqNum true]
  | closeClient {req : Request T} {sh' : Shared T} {v' : Server T} (h : closeClientFd sh v = (sh', v')) :
    ServerStep sh v (.closeClient req) sh' v' (.addSeqLen req) []
  | addSeqLen {req : Request T} :
    ServerStep sh v (.addSeqLen req) sh { v with seqNum := v.seqNum + req.seqLen } .truncate []
  | truncate : ServerStep sh v .truncate { sh with initFile := [] } v .seek []
  | seek : ServerStep sh v .seek sh { v with offset := 0 } .writeInit []
  | writeInit :
    ServerStep sh v .writeInit { sh with initFile := writeAt sh.initFile v.offset (encode v.seqNum) }
      { v with offset := v.offset + intSize } .readReq []
  | bye {bl : List Signal} : ServerStep sh v (.handler bl .bye) sh v (.handler bl .closeServer) []
  | closeServerFd {bl : List Signal} {sh' : Shared T} {v' : Server T} (h : closeServerFd sh v = (sh', v')) :
    ServerStep sh v (.handler bl .closeServer) sh' v' (.handler bl .closeDummy) []
  | closeDummyFd {bl : List Signal} {sh' : Shared T} {v' : Server T} (h : closeDummyFd sh v = (sh', v')) :
    ServerStep sh v (.handler bl .closeDummy) sh' v' (.handler bl .unlink) []
  | unlink {bl : List Signal} : ServerStep sh v (.handler bl .unlink) { sh with serverPath := none } v .terminate []
  | terminate {sh' : Shared T} {v' : Server T} (h : closeAll sh v = (sh', v')) :
    ServerStep sh v .terminate sh' v' .ended []
  | restart : ServerStep sh v .ended sh Server.fresh .openInit []

theorem server_cases {v v' : Server T} {pc pc' : ServerPc T} (h : server sh v pc = some ((sh', v'), pc', es)) :
    ServerStep sh v pc sh' v' pc' es := by
  rcases pc with _ | _ | _ | _ | _ | _ | ⟨id, w⟩ | _ | _ | _ | req | req | req | req | _ | _ | _ | ⟨bl, p⟩ | _ | _
  case openInit =>
    cases h
    exact .openInit
  case readInit =>
    simp only [server] at h
    split_ifs at h with h0 h4 <;> cases h
    · exact .readInit rfl (.inl ⟨h0, rfl⟩)
    · exact .readInit rfl (.inr ⟨h4, rfl⟩)
    · exact .readShort rfl h0 h4
  case sigactionInt =>
    cases h
    exact .sigactionInt
  case sigactionTerm =>
    cases h
    exact .sigactionTerm
  case mkfifo =>
    simp only [server] at h
    split at h <;> rename_i hp <;> cases h
    · exact .mkfifo hp
    · exact .mkfifoExists hp
  case openServer =>
    simp only [server] at h
    split at h
    · rename_i hp
      cases h
      exact .noFifo hp
    · rename_i id hp
      split_ifs at h with hw <;> cases h
      · exact .openServerWait hp hw
      · exact .openServer hp hw
  case openServerWait =>
    simp only [server] at h
    split_ifs at h with ho
    cases h
    exact .serverOpened ho
  case openDummy =>
    simp only [server] at h
    split at h
    · rename_i hp
      cases h
      exact .noDummy hp
    · rename_i id hp
      split_ifs at h with hr
      cases h
      exact .openDummy hp hr
  case ignoreSigpipe =>
    cases h
    exact .ignoreSigpipe
  case readReq =>
    simp only [server] at h
    split at h
    · rename_i hfd
      cases h
      exact .noReq fun id hid => by cases hfd.symm.trans hid
    · rename_i id hfd
      split at h
      · cases h
      · rename_i hr
        cases h
        rcases read_eq_some hr with ⟨x, data, -, hx, -⟩ | ⟨hd, hw, -, -⟩
        · cases hx
        · refine .noReq fun id' hid => ?_
          cases hfd.symm.trans hid
          exact ⟨hd, hw⟩
      · rename_i f req hr
        cases h
        rcases read_eq_some hr with ⟨x, data, hd, hx, rfl⟩ | ⟨-, -, hx, -⟩ <;> cases hx
        exact .readReq hfd hd
  case openClient =>
    simp only [server, openWriteNonblock] at h
    split_ifs at h with hp hr <;> cases h
    · exact .discard (.inr hr)
    · exact .openClient hp hr
    · exact .discard (.inl (by simpa using hp))
  case writeReply =>
    simp only [server, write] at h
    split_ifs at h with hr <;> cases h
    · exact .epipe hr
    · exact .writeReply hr
  case closeClient =>
    simp only [server, Option.some.injEq, Prod.mk.injEq] at h
    obtain ⟨hr, rfl, rfl⟩ := h
    exact .closeClient hr
  case addSeqLen =>
    cases h
    exact .addSeqLen
  case truncate =>
    cases h
    exact .truncate
  case seek =>
    cases h
    exact .seek
  case writeInit =>
    cases h
    exact .writeInit
  case handler =>
    simp only [server, Option.some.injEq, Prod.mk.injEq] at h
    obtain ⟨hr, rfl, rfl⟩ := h
    rcases p with _ | _ | _ | _
    · cases hr
      exact .bye
    · exact .closeServerFd hr
    · exact .closeDummyFd hr
    · cases hr
      exact .unlink
  case terminate =>
    simp only [server, Option.some.injEq, Prod.mk.injEq] at h
    obtain ⟨hr, rfl, rfl⟩ := h
    exact .terminate hr
  case ended =>
    cases h
    exact .restart

omit [DecidableEq T] in
theorem closeServerFd_client (sh : Shared T) (v : Server T) :
    (closeServerFd sh v).1.clientFifo = sh.clientFifo ∧ (closeServerFd sh v).1.clientPath = sh.clientPath := by
  unfold closeServerFd
  split <;> exact ⟨rfl, rfl⟩

omit [DecidableEq T] in
theorem closeDummyFd_client (sh : Shared T) (v : Server T) :
    (closeDummyFd sh v).1.clientFifo = sh.clientFifo ∧ (closeDummyFd sh v).1.clientPath = sh.clientPath := by
  unfold closeDummyFd
  split <;> exact ⟨rfl, rfl⟩

/-- what the kernel does to the clients' FIFOs is to close the one that the server has open -/
theorem closeAll_client (sh : Shared T) (v : Server T) :
    ∃ sh₁ v₁, sh₁.clientFifo = sh.clientFifo ∧ sh₁.clientPath = sh.clientPath ∧ closeAll sh v = closeClientFd sh₁ v₁ := by
  obtain ⟨hf1, hp1⟩ := closeServerFd_client sh v
  obtain ⟨hf2, hp2⟩ := closeDummyFd_client (closeServerFd sh v).1 (closeServerFd sh v).2
  exact ⟨_, _, hf2.trans hf1, hp2.trans hp1, rfl⟩

/-- a client shows only what it prints -/
theorem client_events {t : T} {arg : Option (List Byte)} {pc pc' : ClientPc}
    (h : client t arg sh pc = some (sh', pc', es)) : es = [] ∨ ∃ n, pc = .print n ∧ es = [.printed t n] := by
  cases client_cases h with
  | print => exact .inr ⟨_, rfl, rfl⟩
  | _ => exact .inl rfl

/-- what the server shows: a request received, one that it drops since it cannot open the client's FIFO, or a reply -/
theorem server_events {v v' : Server T} {pc pc' : ServerPc T} (h : server sh v pc = some ((sh', v'), pc', es)) :
    (es = [] ∧ ∀ req, pc' = .writeReply req → pc = .openClient req) ∨
    (∃ req, pc' = .openClient req ∧ es = [.received req.pid]) ∨
    (∃ req, pc = .openClient req ∧ pc' = .readReq ∧ es = [.discarded req.pid] ∧
      (sh.clientPath req.pid = false ∨ (sh.clientFifo req.pid).readers = 0)) ∨
    ∃ req ok, pc = .writeReply req ∧ pc' = .closeClient req ∧ es = [.replied req.pid v.seqNum ok] ∧
      (ok = false → (sh.clientFifo req.pid).readers = 0) := by
  cases server_cases h with
  | readReq => exact .inr (.inl ⟨_, rfl, rfl⟩)
  | discard hno => exact .inr (.inr (.inl ⟨_, rfl, rfl, rfl, hno⟩))
  | epipe hr => exact .inr (.inr (.inr ⟨_, false, rfl, rfl, rfl, fun _ => hr⟩))
  | writeReply => exact .inr (.inr (.inr ⟨_, true, rfl, rfl, rfl, by simp⟩))
  | openClient =>
    refine .inl ⟨rfl, fun req he => ?_⟩
    cases he
    rfl
  | _ => exact .inl ⟨rfl, fun req he => by cases he⟩

end OsPractice.Seqnum
