/-
The stream socket example (`sockets-UNIX-domain/us-xfr`). Any number of clients connect to one iterative server;
each copies what it reads to its connection, and the server copies one connection after another to its standard
output.

Each system call is one step. A `read` returns as many bytes as the environment chooses, up to `BUF_SIZE` and to what
is there. Of the errors only those are modelled that the processes cause each other (no server is listening, nobody
reads), and errors of the descriptor that a client reads. Writes complete in full.

Results:
- `client_step`, `server_step`: a step keeps the books of what has been read, is under way and has been written (`Inv`);
- `copied`: the output is what the clients have read from descriptor 1, in the order of acceptance;
- `transfer_iff`: it is their standard input if and only if descriptor 1 yields the same bytes.
-/
import OsPractice.Core.Interleave
import OsPractice.Core.Bytes
import OsPractice.Core.ByteStream

namespace OsPractice.UsXfr

open Interleave Bytes ByteStream

/-! ## The program -/

def BUF_SIZE : ℕ := 100

def BACKLOG : ℕ := 5

/-- how many bytes a connection holds at most -/
def SNDBUF : ℕ := 212992

/-- the server, and the runs of the client -/
inductive Proc (ι : Type) where
  | server
  | client (i : ι)
  deriving DecidableEq, Repr

inductive Fileno where
  | stdin
  | stdout
  deriving DecidableEq, Repr

/-- what reading a descriptor yields: the bytes, and after them the end of the file or an error -/
structure Source where
  data : List Byte
  fails : Bool
  deriving DecidableEq, Repr

abbrev Conn (ι : Type) := Channel (Proc ι) Byte

structure Shared (ι : Type) where
  /-- what the descriptors of each client have left -/
  fds : ι → Fileno → Source
  listening : Bool
  /-- connections that have not been accepted -/
  queue : List ι
  conn : ι → Conn ι

inductive Pc (ι : Type) where
  -- the server; `cfd` is the client that has been accepted
  | socket
  | bind
  | listen
  | accept
  | read (cfd : ι)
  | write (cfd : ι) (numRead : ℕ)
  | close (cfd : ι)
  -- a client
  | clientSocket
  | connect
  | clientRead
  | clientWrite (numRead : ℕ)
  | exit
  | ended
  deriving DecidableEq, Repr

structure Local (ι : Type) where
  pc : Pc ι
  buf : List Byte
  deriving DecidableEq, Repr

inductive Event (ι : Type) where
  | connected (i : ι)
  | accepted (i : ι)
  /-- the server has written these bytes to its standard output -/
  | output (bytes : List Byte)
  deriving DecidableEq, Repr

variable {ι : Type}

section

variable [DecidableEq ι]

def prog : Prog (Proc ι) ℕ (Shared ι) (Local ι) (Event ι) := fun p k sh l =>
  match p, l.pc with
  | .server, .socket => some (sh, { l with pc := .bind }, [])
  | .server, .bind => some (sh, { l with pc := .listen }, [])
  | .server, .listen => some ({ sh with listening := true }, { l with pc := .accept }, [])
  | .server, .accept =>
    match sh.queue with
    | [] => none
    | i :: queue => some ({ sh with queue := queue }, { l with pc := .read i }, [.accepted i])
  | .server, .read cfd => (readSome BUF_SIZE k (sh.conn cfd)).map fun r =>
      ({ sh with conn := Function.update sh.conn cfd r.1 },
        ⟨if r.2.length = 0 then .close cfd else .write cfd r.2.length, fill l.buf r.2⟩, [])
  | .server, .write cfd numRead => some (sh, { l with pc := .read cfd }, [.output (l.buf.take numRead)])
  | .server, .close cfd =>
    some ({ sh with conn := Function.update sh.conn cfd (closeRead p (sh.conn cfd)) }, { l with pc := .accept }, [])
  | .client _, .clientSocket => some (sh, { l with pc := .connect }, [])
  | .client i, .connect =>
    -- ECONNREFUSED without a listening socket
    if sh.listening = false then some (sh, { l with pc := .ended }, [])
    else if BACKLOG < sh.queue.length then none
    else some ({ sh with queue := sh.queue ++ [i], conn := Function.update sh.conn i ⟨[.server], [p], []⟩ },
      { l with pc := .clientRead }, [.connected i])
  | .client i, .clientRead =>
    -- the loop reads `STDOUT_FILENO`; an error and the end of the file both lead to `exit`
    if (sh.fds i .stdout).data = [] then some (sh, { l with pc := .exit }, [])
    else if 0 < k ∧ k ≤ BUF_SIZE ∧ k ≤ (sh.fds i .stdout).data.length then
      some ({ sh with fds := Function.update sh.fds i (Function.update (sh.fds i) .stdout
          { sh.fds i .stdout with data := (sh.fds i .stdout).data.drop k }) },
        ⟨.clientWrite k, fill l.buf ((sh.fds i .stdout).data.take k)⟩, [])
    else none
  | .client i, .clientWrite numRead =>
    match ByteStream.write SNDBUF (l.buf.take numRead) (sh.conn i) with
    | .blocked => none
    | .broken => some ({ sh with conn := Function.update sh.conn i (closeWrite p (sh.conn i)) },
        { l with pc := .ended }, [])
    | .done conn => some ({ sh with conn := Function.update sh.conn i conn }, { l with pc := .clientRead }, [])
  | .client i, .exit =>
    some ({ sh with conn := Function.update sh.conn i (closeWrite p (sh.conn i)) }, { l with pc := .ended }, [])
  | _, _ => none

end

abbrev Global (ι : Type) := St (Proc ι) (Shared ι) (Local ι)

/-- the server and the clients with their descriptors, before anybody has run -/
def start (fds : ι → Fileno → Source) (buf : Proc ι → Vector Byte BUF_SIZE) : Global ι where
  sh := ⟨fds, false, [], fun _ => ⟨[], [], []⟩⟩
  loc
    | .server => ⟨.socket, (buf .server).toList⟩
    | .client i => ⟨.clientSocket, (buf (.client i)).toList⟩

/-! ## What has happened -/

def connectedBy : Event ι → Option ι
  | .connected i => some i
  | _ => none

def acceptedBy : Event ι → Option ι
  | .accepted i => some i
  | _ => none

def outputOf : Event ι → List Byte
  | .output bytes => bytes
  | _ => []

/-- the clients whose `connect` has succeeded, in this order -/
def connected (tr : List (Event ι)) : List ι := tr.filterMap connectedBy

/-- the clients that the server has accepted, in this order -/
def accepted (tr : List (Event ι)) : List ι := tr.filterMap acceptedBy

/-- what the server has written to its standard output -/
def output (tr : List (Event ι)) : List Byte := tr.flatMap outputOf

@[simp] theorem connected_append (tr es : List (Event ι)) : connected (tr ++ es) = connected tr ++ connected es :=
  List.filterMap_append

@[simp] theorem accepted_append (tr es : List (Event ι)) : accepted (tr ++ es) = accepted tr ++ accepted es :=
  List.filterMap_append

@[simp] theorem output_append (tr es : List (Event ι)) : output (tr ++ es) = output tr ++ output es :=
  List.flatMap_append

/-! ## The books -/

/-- what a client has read and not written -/
def held (l : Local ι) : List Byte :=
  match l.pc with
  | .clientWrite numRead => l.buf.take numRead
  | _ => []

/-- what the server has not got from client `i` -/
def left (sh : Shared ι) (l : Local ι) (i : ι) : List Byte :=
  (sh.conn i).data ++ held l ++ (sh.fds i .stdout).data

/-- a client that has no connection, and perhaps never gets one -/
structure Offline (sh : Shared ι) (l : Local ι) (i : ι) : Prop where
  pc : l.pc = .clientSocket ∨ l.pc = .connect ∨ l.pc = .ended
  data : (sh.conn i).data = []

/-- both ends of the connection of client `i` are open -/
structure Open (sh : Shared ι) (i : ι) : Prop where
  writer : (sh.conn i).writers = [.client i]
  reader : .server ∈ (sh.conn i).readers

/-- a client that has connected -/
inductive Online (sh : Shared ι) (l : Local ι) (i : ι) : Prop where
  | reading (hpc : l.pc = .clientRead) (ho : Open sh i)
  | writing {numRead : ℕ} (hpc : l.pc = .clientWrite numRead) (ho : Open sh i)
  | exiting (hpc : l.pc = .exit) (ho : Open sh i) (hd : (sh.fds i .stdout).data = [])
  | done (hpc : l.pc = .ended) (hw : (sh.conn i).writers = []) (hd : (sh.fds i .stdout).data = [])

/-- the server with the clients it has accepted and its output; `rest i` is what it has not got from client `i`, and
`data i` is all that the client can read -/
inductive Serving (data rest : ι → List Byte) (sh : Shared ι) (l : Local ι) (acc : List ι) (out : List Byte) :
    Prop where
  | idle (hpc : l.pc = .socket ∨ l.pc = .bind ∨ l.pc = .listen ∨ l.pc = .accept) (hout : out = acc.flatMap data)
  | reading {i : ι} (hpc : l.pc = .read i) (hi : i ∈ acc) (hout : out ++ rest i = acc.flatMap data)
  | writing {i : ι} {numRead : ℕ} (hpc : l.pc = .write i numRead) (hi : i ∈ acc)
      (hout : out ++ l.buf.take numRead ++ rest i = acc.flatMap data)
  | closing {i : ι} (hpc : l.pc = .close i) (hi : i ∈ acc) (hw : (sh.conn i).writers = [])
      (hout : out = acc.flatMap data)

def rest (s : Global ι) (i : ι) : List Byte := left s.sh (s.loc (.client i)) i

structure Inv (data : ι → List Byte) (tr : List (Event ι)) (s : Global ι) : Prop where
  queue : accepted tr ++ s.sh.queue = connected tr
  nodup : (connected tr).Nodup
  offline : ∀ i, i ∉ connected tr → Offline s.sh (s.loc (.client i)) i
  online : ∀ i, i ∈ connected tr → Online s.sh (s.loc (.client i)) i
  waiting : ∀ i, i ∉ accepted tr → rest s i = data i
  buf : ∀ p, (s.loc p).buf.length = BUF_SIZE
  serving : Serving data (rest s) s.sh (s.loc .server) (accepted tr) (output tr)

/-- the connections and descriptors of the other clients stay as they are -/
structure Frame (sh sh' : Shared ι) (i : ι) : Prop where
  conn : ∀ j, j ≠ i → sh'.conn j = sh.conn j
  fds : ∀ j, j ≠ i → sh'.fds j = sh.fds j

theorem Frame.refl (sh : Shared ι) (i : ι) : Frame sh sh i := ⟨fun _ _ => rfl, fun _ _ => rfl⟩

theorem Frame.offline {sh sh' : Shared ι} {i j : ι} {l : Local ι} (h : Frame sh sh' i) (hj : j ≠ i)
    (ho : Offline sh l j) : Offline sh' l j :=
  ⟨ho.pc, by rw [h.conn j hj]; exact ho.data⟩

theorem Frame.open {sh sh' : Shared ι} {i j : ι} (h : Frame sh sh' i) (hj : j ≠ i) (ho : Open sh j) : Open sh' j := by
  obtain ⟨hw, hr⟩ := ho
  rw [← h.conn j hj] at hw hr
  exact ⟨hw, hr⟩

theorem Frame.online {sh sh' : Shared ι} {i j : ι} {l : Local ι} (h : Frame sh sh' i) (hj : j ≠ i)
    (ho : Online sh l j) : Online sh' l j := by
  cases ho with
  | reading hpc ho => exact .reading hpc (h.open hj ho)
  | writing hpc ho => exact .writing hpc (h.open hj ho)
  | exiting hpc ho hd => exact .exiting hpc (h.open hj ho) (by rw [h.fds j hj]; exact hd)
  | done hpc hw hd => exact .done hpc (by rw [h.conn j hj]; exact hw) (by rw [h.fds j hj]; exact hd)

theorem Frame.left {sh sh' : Shared ι} {i j : ι} {l : Local ι} (h : Frame sh sh' i) (hj : j ≠ i) :
    left sh' l j = left sh l j := by
  rw [UsXfr.left, UsXfr.left, h.conn j hj, h.fds j hj]

theorem Serving.congr {data rest rest' : ι → List Byte} {sh sh' : Shared ι} {l : Local ι} {acc : List ι}
    {out : List Byte} (h : Serving data rest sh l acc out) (hrest : ∀ i, rest' i = rest i)
    (hw : ∀ i ∈ acc, (sh.conn i).writers = [] → (sh'.conn i).writers = []) : Serving data rest' sh' l acc out := by
  cases h with
  | idle hpc hout => exact .idle hpc hout
  | reading hpc hi hout => exact .reading hpc hi (by rw [hrest]; exact hout)
  | writing hpc hi hout => exact .writing hpc hi (by rw [hrest]; exact hout)
  | closing hpc hi hw' hout => exact .closing hpc hi (hw _ hi hw') hout

theorem Inv.mem_connected {data : ι → List Byte} {tr : List (Event ι)} {s : Global ι} {i : ι} (h : Inv data tr s)
    (hi : i ∈ accepted tr) : i ∈ connected tr := by
  rw [← h.queue]
  exact List.mem_append_left _ hi

/-- at the end of its connection the server has got everything from the client -/
theorem Inv.rest_eq_nil {data : ι → List Byte} {tr : List (Event ι)} {s : Global ι} {i : ι} (h : Inv data tr s)
    (hi : i ∈ connected tr) (hd : (s.sh.conn i).data = []) (hw : (s.sh.conn i).writers = []) : rest s i = [] := by
  cases h.online i hi with
  | reading _ ho | writing _ ho | exiting _ ho => simp [ho.writer] at hw
  | done hpc _ hdone => simp [rest, left, held, hpc, hd, hdone]

variable [DecidableEq ι]

/-! ## The steps of a client -/

/-- before it has a connection a client at most gets one -/
theorem offline_step {i : ι} {k : ℕ} {sh sh' : Shared ι} {l l' : Local ι} {es : List (Event ι)} (ho : Offline sh l i)
    (h : prog (.client i) k sh l = some (sh', l', es)) :
    l'.buf = l.buf ∧ ((es = [] ∧ sh' = sh ∧ Offline sh l' i ∧ left sh l' i = left sh l i) ∨
      (es = [.connected i] ∧ sh'.queue = sh.queue ++ [i] ∧ Frame sh sh' i ∧ Online sh' l' i ∧
        left sh' l' i = left sh l i)) := by
  obtain ⟨hpc, hd⟩ := ho
  obtain ⟨pc, buf⟩ := l
  simp only at hpc
  rcases hpc with rfl | rfl | rfl
  · cases h
    exact ⟨rfl, .inl ⟨rfl, rfl, ⟨.inr (.inl rfl), hd⟩, rfl⟩⟩
  · simp only [prog] at h
    split_ifs at h with hl hq
    · cases h
      exact ⟨rfl, .inl ⟨rfl, rfl, ⟨.inr (.inr rfl), hd⟩, rfl⟩⟩
    · cases h
      refine ⟨rfl, .inr ⟨rfl, rfl, ⟨fun j hj => Function.update_of_ne hj _ _, fun _ _ => rfl⟩, .reading rfl ?_, ?_⟩⟩
      · constructor <;> simp
      · simp [left, held, hd]
  · cases h

theorem online_step {i : ι} {k : ℕ} {sh sh' : Shared ι} {l l' : Local ι} {es : List (Event ι)} (ho : Online sh l i)
    (hbuf : l.buf.length = BUF_SIZE) (h : prog (.client i) k sh l = some (sh', l', es)) :
    es = [] ∧ sh'.queue = sh.queue ∧ Frame sh sh' i ∧ Online sh' l' i ∧ left sh' l' i = left sh l i ∧
      l'.buf.length = BUF_SIZE := by
  obtain ⟨pc, buf⟩ := l
  cases ho with
  | reading hpc ho =>
    simp only at hpc hbuf
    subst hpc
    simp only [prog] at h
    split_ifs at h with hd hk
    · cases h
      exact ⟨rfl, rfl, .refl sh i, .exiting rfl ho hd, rfl, hbuf⟩
    · cases h
      have hlen : ((sh.fds i .stdout).data.take k).length = k := by
        rw [List.length_take]
        omega
      refine ⟨rfl, rfl, ⟨fun _ _ => rfl, fun j hj => Function.update_of_ne hj _ _⟩, .writing rfl ⟨ho.1, ho.2⟩, ?_, ?_⟩
      · have htake := fill_take buf ((sh.fds i .stdout).data.take k)
        rw [hlen] at htake
        simp [left, held, htake]
      · rw [← hbuf]
        refine fill_length ?_
        rw [hlen, hbuf]
        exact hk.2.1
  | @writing numRead hpc ho =>
    simp only at hpc hbuf
    subst hpc
    have hr : (sh.conn i).readers ≠ [] := List.ne_nil_of_mem ho.reader
    simp only [prog, ByteStream.write, if_neg hr] at h
    split_ifs at h with hnil hcap
    · cases h
      rw [Function.update_eq_self]
      exact ⟨rfl, rfl, .refl sh i, .reading rfl ho, by simp [left, held, hnil], hbuf⟩
    · cases h
      refine ⟨rfl, rfl, ⟨fun j hj => Function.update_of_ne hj _ _, fun _ _ => rfl⟩, .reading rfl ?_, ?_, hbuf⟩
      · constructor
        · simpa using ho.writer
        · simpa using ho.reader
      · simp [left, held]
  | exiting hpc ho hd =>
    simp only at hpc hbuf
    subst hpc
    cases h
    refine ⟨rfl, rfl, ⟨fun j hj => Function.update_of_ne hj _ _, fun _ _ => rfl⟩, .done rfl ?_ hd, ?_, hbuf⟩
    · simp [closeWrite, ho.writer]
    · simp [left, held, closeWrite]
  | done hpc =>
    simp only at hpc
    subst hpc
    cases h

/-- the books after a step of client `i` that keeps what the server has not got from it -/
theorem Inv.client {data : ι → List Byte} {tr es : List (Event ι)} {s : Global ι} {i : ι} {sh : Shared ι} {l : Local ι}
    (h : Inv data tr s) (hframe : Frame s.sh sh i) (hleft : left sh l i = rest s i) (hbuf : l.buf.length = BUF_SIZE)
    (hacc : accepted es = []) (hout : output es = []) (hqueue : accepted tr ++ sh.queue = connected (tr ++ es))
    (hnodup : (connected (tr ++ es)).Nodup) (hes : ∀ j, j ≠ i → (j ∈ connected (tr ++ es) ↔ j ∈ connected tr))
    (hoff : i ∉ connected (tr ++ es) → Offline sh l i) (hon : i ∈ connected (tr ++ es) → Online sh l i)
    (hw : i ∈ accepted tr → (s.sh.conn i).writers = [] → (sh.conn i).writers = []) :
    Inv data (tr ++ es) (s.move (.client i) sh l) := by
  have hloc : ∀ j, j ≠ i → (s.move (.client i) sh l).loc (.client j) = s.loc (.client j) := fun j hj => by
    simp [Function.update_of_ne, hj]
  have hrest : ∀ j, rest (s.move (.client i) sh l) j = rest s j := by
    intro j
    by_cases hj : j = i
    · subst hj
      simpa [rest] using hleft
    · rw [rest, hloc j hj]
      exact hframe.left hj
  refine ⟨?_, hnodup, ?_, ?_, ?_, ?_, ?_⟩
  · rw [accepted_append, hacc, List.append_nil]
    exact hqueue
  · intro j hj
    by_cases hji : j = i
    · subst hji
      simpa using hoff hj
    · rw [hloc j hji]
      exact hframe.offline hji (h.offline j fun hm => hj ((hes j hji).2 hm))
  · intro j hj
    by_cases hji : j = i
    · subst hji
      simpa using hon hj
    · rw [hloc j hji]
      exact hframe.online hji (h.online j ((hes j hji).1 hj))
  · intro j hj
    rw [accepted_append, hacc, List.append_nil] at hj
    rw [hrest, h.waiting j hj]
  · intro p
    by_cases hp : p = .client i
    · subst hp
      simpa using hbuf
    · rw [St.move_loc, Function.update_of_ne hp]
      exact h.buf p
  · rw [accepted_append, output_append, hacc, hout, List.append_nil, List.append_nil, St.move_loc,
      Function.update_of_ne (by simp)]
    refine h.serving.congr hrest fun j hj hwj => ?_
    by_cases hji : j = i
    · subst hji
      exact hw hj hwj
    · rw [St.move_sh, hframe.conn j hji]
      exact hwj

theorem client_step {data : ι → List Byte} {tr es : List (Event ι)} {s : Global ι} {i : ι} {k : ℕ} {sh : Shared ι}
    {l : Local ι} (h : Inv data tr s) (hs : prog (.client i) k s.sh (s.loc (.client i)) = some (sh, l, es)) :
    Inv data (tr ++ es) (s.move (.client i) sh l) := by
  by_cases hi : i ∈ connected tr
  · have hon := h.online i hi
    obtain ⟨rfl, hqueue, hframe, hon', hleft, hbuf⟩ := online_step hon (h.buf _) hs
    refine h.client hframe hleft hbuf rfl rfl ?_ ?_ ?_ ?_ ?_ ?_
    · rw [hqueue, List.append_nil]
      exact h.queue
    · rw [List.append_nil]
      exact h.nodup
    · simp
    · exact fun hn => absurd (by simpa using hi) hn
    · exact fun _ => hon'
    · intro _ hw
      cases hon with
      | reading _ ho | writing _ ho | exiting _ ho => simp [ho.writer] at hw
      | done hpc =>
        simp only [prog, hpc] at hs
        cases hs
  · have hacc : i ∉ accepted tr := fun ha => hi (h.mem_connected ha)
    obtain ⟨hbuf, ⟨rfl, rfl, hoff, hleft⟩ | ⟨rfl, hqueue, hframe, hon, hleft⟩⟩ := offline_step (h.offline i hi) hs
    · refine h.client (.refl _ i) hleft (hbuf ▸ h.buf _) rfl rfl ?_ ?_ ?_ (fun _ => hoff) ?_ fun _ hw => hw
      · rw [List.append_nil]
        exact h.queue
      · rw [List.append_nil]
        exact h.nodup
      · simp
      · exact fun hm => absurd (by simpa using hm) hi
    · have hone : connected [Event.connected i] = [i] := rfl
      refine h.client hframe hleft (hbuf ▸ h.buf _) rfl rfl ?_ ?_ ?_ ?_ (fun _ => hon) fun ha => absurd ha hacc
      · rw [hqueue, connected_append, hone, ← List.append_assoc, h.queue]
      · rw [connected_append, hone]
        refine List.nodup_append.2 ⟨h.nodup, List.nodup_singleton i, ?_⟩
        rintro a ha b hb rfl
        rw [List.mem_singleton] at hb
        subst hb
        exact hi ha
      · intro j hj
        rw [connected_append, hone]
        simp [hj]
      · intro hn
        rw [connected_append, hone] at hn
        simp at hn

/-! ## The steps of the server -/

/-- the books after a step of the server -/
theorem Inv.server {data : ι → List Byte} {tr es : List (Event ι)} {s : Global ι} {sh : Shared ι} {l : Local ι}
    (h : Inv data tr s) (hfds : sh.fds = s.sh.fds) (hcon : connected es = [])
    (hqueue : accepted (tr ++ es) ++ sh.queue = connected tr) (hbuf : l.buf.length = BUF_SIZE)
    (hw : ∀ j, (sh.conn j).writers = (s.sh.conn j).writers)
    (hr : ∀ j, (s.sh.conn j).writers ≠ [] → .server ∈ (s.sh.conn j).readers → .server ∈ (sh.conn j).readers)
    (hd : ∀ j, j ∉ accepted (tr ++ es) → (sh.conn j).data = (s.sh.conn j).data)
    (hserv : Serving data (rest (s.move .server sh l)) sh l (accepted (tr ++ es)) (output (tr ++ es))) :
    Inv data (tr ++ es) (s.move .server sh l) := by
  have hloc : ∀ j, (s.move .server sh l).loc (.client j) = s.loc (.client j) := fun j => by simp
  have hconn : connected (tr ++ es) = connected tr := by rw [connected_append, hcon, List.append_nil]
  have hopen : ∀ j, Open s.sh j → Open sh j := by
    intro j ho
    refine ⟨(hw j).trans ho.writer, hr j ?_ ho.reader⟩
    simp [ho.writer]
  refine ⟨?_, ?_, ?_, ?_, ?_, ?_, ?_⟩
  · rw [hconn]
    exact hqueue
  · rw [hconn]
    exact h.nodup
  · intro j hj
    rw [hconn] at hj
    have hoff := h.offline j hj
    have hacc : j ∉ accepted (tr ++ es) := by
      intro ha
      refine hj ?_
      rw [← hqueue]
      exact List.mem_append_left _ ha
    rw [hloc]
    exact ⟨hoff.pc, (hd j hacc).trans hoff.data⟩
  · intro j hj
    rw [hconn] at hj
    rw [hloc]
    cases h.online j hj with
    | reading hpc ho => exact .reading hpc (hopen j ho)
    | writing hpc ho => exact .writing hpc (hopen j ho)
    | exiting hpc ho hdone => exact .exiting hpc (hopen j ho) (by rw [St.move_sh, hfds]; exact hdone)
    | done hpc hwj hdone => exact .done hpc ((hw j).trans hwj) (by rw [St.move_sh, hfds]; exact hdone)
  · intro j hj
    rw [rest, hloc, left, St.move_sh, hd j hj, hfds]
    refine h.waiting j fun ha => hj ?_
    rw [accepted_append]
    exact List.mem_append_left _ ha
  · intro p
    by_cases hp : p = .server
    · subst hp
      simpa using hbuf
    · rw [St.move_loc, Function.update_of_ne hp]
      exact h.buf p
  · rw [St.move_loc, Function.update_self]
    exact hserv

/-- a step of the server that leaves the connections alone -/
theorem Inv.server_quiet {data : ι → List Byte} {tr es : List (Event ι)} {s : Global ι} {sh : Shared ι} {l : Local ι}
    (h : Inv data tr s) (hconn : sh.conn = s.sh.conn) (hfds : sh.fds = s.sh.fds) (hqueue : sh.queue = s.sh.queue)
    (hcon : connected es = []) (hacc : accepted es = []) (hbuf : l.buf.length = BUF_SIZE)
    (hserv : Serving data (rest s) sh l (accepted tr) (output tr ++ output es)) :
    Inv data (tr ++ es) (s.move .server sh l) := by
  have haccs : accepted (tr ++ es) = accepted tr := by rw [accepted_append, hacc, List.append_nil]
  refine h.server hfds hcon ?_ hbuf (fun j => by rw [hconn]) (fun j _ hr => by rw [hconn]; exact hr)
    (fun j _ => by rw [hconn]) ?_
  · rw [haccs, hqueue]
    exact h.queue
  · rw [haccs, output_append]
    refine hserv.congr (fun j => ?_) fun _ _ hw => hw
    simp [rest, left, hconn, hfds]

/-- a step of the server on the connection of a client that it has accepted -/
theorem Inv.server_conn {data : ι → List Byte} {tr : List (Event ι)} {s : Global ι} {i : ι} {conn : Conn ι}
    {l : Local ι} (h : Inv data tr s) (hi : i ∈ accepted tr) (hw : conn.writers = (s.sh.conn i).writers)
    (hr : (s.sh.conn i).writers ≠ [] → .server ∈ (s.sh.conn i).readers → .server ∈ conn.readers)
    (hbuf : l.buf.length = BUF_SIZE)
    (hserv : Serving data (rest (s.move .server { s.sh with conn := Function.update s.sh.conn i conn } l))
      { s.sh with conn := Function.update s.sh.conn i conn } l (accepted tr) (output tr)) :
    Inv data (tr ++ []) (s.move .server { s.sh with conn := Function.update s.sh.conn i conn } l) := by
  refine h.server rfl rfl (by simpa using h.queue) hbuf (fun j => ?_) (fun j hwj hrj => ?_) (fun j hj => ?_)
    (by simpa using hserv)
  · by_cases hj : j = i
    · subst hj
      simpa using hw
    · simp [Function.update_of_ne hj]
  · by_cases hj : j = i
    · subst hj
      simpa using hr hwj hrj
    · simpa [Function.update_of_ne hj] using hrj
  · have hji : j ≠ i := by
      rintro rfl
      exact hj (by simpa using hi)
    simp [Function.update_of_ne hji]

theorem server_accept {data : ι → List Byte} {tr : List (Event ι)} {s : Global ι} {i : ι} {queue : List ι} {l : Local ι}
    (h : Inv data tr s) (hq : s.sh.queue = i :: queue) (hout : output tr = (accepted tr).flatMap data)
    (hpc : l.pc = .read i) (hbuf : l.buf.length = BUF_SIZE) :
    Inv data (tr ++ [.accepted i]) (s.move .server { s.sh with queue := queue } l) := by
  have hone : accepted [Event.accepted i] = [i] := rfl
  have hqueue : accepted tr ++ i :: queue = connected tr := by rw [← hq, h.queue]
  have hi : i ∉ accepted tr := by
    have hn := h.nodup
    rw [← hqueue] at hn
    exact fun ha => (List.nodup_append.1 hn).2.2 i ha i List.mem_cons_self rfl
  refine h.server rfl rfl ?_ hbuf (fun _ => rfl) (fun _ _ hr => hr) (fun _ _ => rfl) (.reading (i := i) hpc ?_ ?_)
  · rw [accepted_append, hone, List.append_assoc]
    exact hqueue
  · simp [hone]
  · have hw : left s.sh (s.loc (.client i)) i = data i := h.waiting i hi
    have hrest : rest (s.move .server { s.sh with queue := queue } l) i = data i := by
      rw [← hw]
      simp [rest, left]
    calc output (tr ++ [.accepted i]) ++ rest (s.move .server { s.sh with queue := queue } l) i
      _ = output tr ++ data i := by rw [hrest, output_append]; simp [output, outputOf]
      _ = (accepted tr).flatMap data ++ data i := by rw [hout]
      _ = (accepted (tr ++ [.accepted i])).flatMap data := by
        rw [accepted_append, hone, List.flatMap_append, List.flatMap_singleton]

theorem server_read {data : ι → List Byte} {tr : List (Event ι)} {s : Global ι} {i : ι} {k : ℕ} {r : Conn ι × List Byte}
    {buf : List Byte} (h : Inv data tr s) (hi : i ∈ accepted tr) (hbuf : buf.length = BUF_SIZE)
    (hout : output tr ++ rest s i = (accepted tr).flatMap data) (hread : readSome BUF_SIZE k (s.sh.conn i) = some r) :
    Inv data (tr ++ []) (s.move .server { s.sh with conn := Function.update s.sh.conn i r.1 }
      ⟨if r.2.length = 0 then .close i else .write i r.2.length, fill buf r.2⟩) := by
  obtain ⟨conn, bs⟩ := r
  rcases readSome_cases hread with ⟨hd, hw, rfl, rfl⟩ | ⟨more, hd, rfl, hne, hle⟩
  · refine h.server_conn hi rfl (fun _ hr => hr) (by simpa [fill] using hbuf) (.closing rfl hi (by simpa using hw) ?_)
    rw [h.rest_eq_nil (h.mem_connected hi) hd hw, List.append_nil] at hout
    exact hout
  · have hlen : bs.length ≠ 0 := fun h0 => hne (List.eq_nil_of_length_eq_zero h0)
    have hfill : (fill buf bs).length = BUF_SIZE := by
      rw [← hbuf] at hle ⊢
      exact fill_length hle
    refine h.server_conn hi rfl (fun _ hr => hr) hfill (.writing (if_neg hlen) hi ?_)
    rw [fill_take, ← hout]
    simp [rest, left, hd]

theorem server_step {data : ι → List Byte} {tr es : List (Event ι)} {s : Global ι} {k : ℕ} {sh : Shared ι} {l : Local ι}
    (h : Inv data tr s) (hs : prog .server k s.sh (s.loc .server) = some (sh, l, es)) :
    Inv data (tr ++ es) (s.move .server sh l) := by
  have hbuf := h.buf .server
  have hserv := h.serving
  generalize s.loc .server = l₀ at hs hbuf hserv
  obtain ⟨pc, buf⟩ := l₀
  cases hserv with
  | idle hpc hout =>
    simp only at hpc
    have hnil : output tr ++ output ([] : List (Event ι)) = (accepted tr).flatMap data := by simpa [output] using hout
    rcases hpc with rfl | rfl | rfl | rfl
    · cases hs
      exact h.server_quiet rfl rfl rfl rfl rfl hbuf (.idle (.inr (.inl rfl)) hnil)
    · cases hs
      exact h.server_quiet rfl rfl rfl rfl rfl hbuf (.idle (.inr (.inr (.inl rfl))) hnil)
    · cases hs
      exact h.server_quiet rfl rfl rfl rfl rfl hbuf (.idle (.inr (.inr (.inr rfl))) hnil)
    · simp only [prog] at hs
      split at hs
      · cases hs
      · rename_i i queue hq
        cases hs
        exact server_accept h hq hout rfl hbuf
  | @reading i hpc hi hout =>
    simp only at hpc
    subst hpc
    obtain ⟨r, hread, he⟩ := Option.map_eq_some_iff.1 hs
    cases he
    exact server_read h hi hbuf hout hread
  | @writing i numRead hpc hi hout =>
    simp only at hpc
    subst hpc
    cases hs
    refine h.server_quiet rfl rfl rfl rfl rfl hbuf (.reading (i := i) rfl hi ?_)
    rw [← hout]
    simp [output, outputOf]
  | @closing i hpc hi hw hout =>
    simp only at hpc
    subst hpc
    cases hs
    exact h.server_conn hi rfl (fun hne => absurd hw hne) hbuf (.idle (.inr (.inr (.inr rfl))) hout)

/-! ## The output -/

theorem run_inv {fds : ι → Fileno → Source} {buf : Proc ι → Vector Byte BUF_SIZE} {as : List (Proc ι × ℕ)}
    {tr : List (Event ι)} {s : Global ι} (h : Run prog (start fds buf) as tr s) :
    Inv (fun i => (fds i .stdout).data) tr s := by
  refine h.inv_trace (I := Inv fun i => (fds i .stdout).data) ⟨rfl, List.nodup_nil, ?_, ?_, ?_, ?_, ?_⟩ ?_
  · exact fun i _ => ⟨.inl rfl, rfl⟩
  · exact fun i hi => absurd hi List.not_mem_nil
  · exact fun i _ => rfl
  · intro p
    cases p <;> exact Vector.length_toList
  · exact .idle (.inl rfl) rfl
  · intro tr s p k sh l es hi hs
    cases p with
    | server => exact server_step hi hs
    | client i => exact client_step hi hs

def AtAccept (s : Global ι) : Prop := (s.loc .server).pc = .accept

/-- a client can go on while its connection is empty and it has not closed it -/
theorem online_canStep {s : Global ι} {i : ι} (ho : Online s.sh (s.loc (.client i)) i)
    (hbuf : (s.loc (.client i)).buf.length = BUF_SIZE) (hd : (s.sh.conn i).data = [])
    (hw : (s.sh.conn i).writers ≠ []) : CanStep prog s (.client i) := by
  cases ho with
  | reading hpc =>
    by_cases hnil : (s.sh.fds i .stdout).data = []
    · exact ⟨0, by simp [prog, hpc, hnil]⟩
    · have hpos : 1 ≤ (s.sh.fds i .stdout).data.length := List.length_pos_of_ne_nil hnil
      exact ⟨1, by simp [prog, hpc, hnil, hpos, BUF_SIZE]⟩
  | @writing numRead hpc ho =>
    have hcap : (s.sh.conn i).data.length + ((s.loc (.client i)).buf.take numRead).length ≤ SNDBUF := by
      rw [hd, List.length_take, hbuf]
      simp only [List.length_nil, BUF_SIZE, SNDBUF]
      omega
    have hwrite := write_all (List.ne_nil_of_mem ho.reader) hcap
    exact ⟨0, by simp [prog, hpc, hwrite]⟩
  | exiting hpc => exact ⟨0, by simp [prog, hpc]⟩
  | done _ hnil => exact absurd hnil hw

/-- when nobody can go on, the server waits for a connection and has accepted all that there are -/
theorem Inv.stuck {data : ι → List Byte} {tr : List (Event ι)} {s : Global ι} (h : Inv data tr s)
    (hstuck : ∀ p, ¬ CanStep prog s p) : AtAccept s ∧ accepted tr = connected tr := by
  have hno : ∀ k, prog .server k s.sh (s.loc .server) = none := not_canStep (hstuck .server)
  cases h.serving with
  | idle hpc =>
    rcases hpc with hpc | hpc | hpc | hpc
    · simpa [prog, hpc] using hno 0
    · simpa [prog, hpc] using hno 0
    · simpa [prog, hpc] using hno 0
    · refine ⟨hpc, ?_⟩
      rw [← h.queue]
      cases hq : s.sh.queue with
      | nil => simp
      | cons i queue => simpa [prog, hpc, hq] using hno 0
  | @reading i hpc hi =>
    -- the server waits for a client that can go on
    exfalso
    have hread : ∀ k, readSome BUF_SIZE k (s.sh.conn i) = none := fun k => by simpa [prog, hpc] using hno k
    have hd : (s.sh.conn i).data = [] := by
      cases hd : (s.sh.conn i).data with
      | nil => rfl
      | cons b more =>
        have hone := hread 1
        rw [readSome_one (by decide : 0 < BUF_SIZE) hd] at hone
        cases hone
    have hw : (s.sh.conn i).writers ≠ [] := fun hw => by simpa [readSome_end hd hw] using hread 0
    exact hstuck (.client i) (online_canStep (h.online i (h.mem_connected hi)) (h.buf _) hd hw)
  | writing hpc => simpa [prog, hpc] using hno 0
  | closing hpc => simpa [prog, hpc] using hno 0

/-- what is expected of the output when the clients have the texts `contents` -/
structure Transferred (contents : ι → List Byte) (tr : List (Event ι)) (s : Global ι) : Prop where
  ordered : output tr <+: (accepted tr).flatMap contents
  /-- between two connections everything has been written -/
  complete : AtAccept s → output tr = (accepted tr).flatMap contents
  /-- in the end every connection has been served -/
  served : (∀ p, ¬ CanStep prog s p) → AtAccept s ∧ accepted tr = connected tr

/-- the output is what the clients have read from descriptor 1, in the order of acceptance -/
theorem copied {fds : ι → Fileno → Source} {buf : Proc ι → Vector Byte BUF_SIZE} {as : List (Proc ι × ℕ)}
    {tr : List (Event ι)} {s : Global ι} (h : Run prog (start fds buf) as tr s) :
    Transferred (fun i => (fds i .stdout).data) tr s := by
  have hinv := run_inv h
  refine ⟨?_, ?_, hinv.stuck⟩
  · cases hinv.serving with
    | idle _ hout | closing _ _ _ hout => exact hout ▸ List.prefix_refl _
    | reading _ _ hout => exact ⟨_, hout⟩
    | writing _ _ hout => exact ⟨_, by rw [← hout, List.append_assoc]⟩
  · intro hpc
    rw [AtAccept] at hpc
    cases hinv.serving with
    | idle _ hout => exact hout
    | reading hpc' | writing hpc' | closing hpc' =>
      rw [hpc] at hpc'
      cases hpc'

/-! ## One client alone -/

/-- the server waits for bytes of client `i`, which has `d` left to read -/
structure Loop (s : Global ι) (i : ι) (d : List Byte) : Prop where
  conn : s.sh.conn i = ⟨[.server], [.client i], []⟩
  data : (s.sh.fds i .stdout).data = d
  client : (s.loc (.client i)).pc = .clientRead
  server : (s.loc .server).pc = .read i

/-- one byte goes from the client to the output -/
theorem Loop.byte {s : Global ι} {i : ι} {b : Byte} {d : List Byte} (h : Loop s i (b :: d)) :
    ∃ as s', Run prog s as [.output [b]] s' ∧ Loop s' i d := by
  obtain ⟨hconn, hdata, hclient, hserver⟩ := h
  -- the client reads and writes the byte
  let fds := Function.update s.sh.fds i (Function.update (s.sh.fds i) .stdout { s.sh.fds i .stdout with data := d })
  let s1 := s.move (.client i) { s.sh with fds := fds } ⟨.clientWrite 1, fill (s.loc (.client i)).buf [b]⟩
  have h1 : Run prog s [(.client i, 1)] [] s1 := .single (by simp [prog, hclient, hdata, BUF_SIZE, fds])
  let full := Function.update s.sh.conn i ⟨[.server], [.client i], [b]⟩
  let s2 := s1.move (.client i) { s1.sh with conn := full } ⟨.clientRead, fill (s.loc (.client i)).buf [b]⟩
  have h2 : Run prog s1 [(.client i, 0)] [] s2 := by
    refine .single ?_
    have htake : (fill (s.loc (.client i)).buf [b]).take 1 = [b] := fill_take _ [b]
    simp [prog, s1, hconn, htake, ByteStream.write, SNDBUF, full]
  -- the server reads and writes it
  let s3 := s2.move .server { s2.sh with conn := s.sh.conn } ⟨.write i 1, fill (s.loc .server).buf [b]⟩
  have h3 : Run prog s2 [(.server, 1)] [] s3 := by
    refine .single ?_
    have hone : readSome BUF_SIZE 1 (⟨[.server], [.client i], [b]⟩ : Conn ι) = some (s.sh.conn i, [b]) := by
      rw [hconn, readSome_one (by decide : 0 < BUF_SIZE) rfl]
    simp [prog, hserver, hone, s2, s1, full]
  let s4 := s3.move .server s3.sh ⟨.read i, fill (s.loc .server).buf [b]⟩
  have h4 : Run prog s3 [(.server, 0)] [.output [b]] s4 := .single (by
    have htake : (fill (s.loc .server).buf [b]).take 1 = [b] := fill_take _ [b]
    simp [prog, s3, htake])
  refine ⟨_, s4, ((h1.append h2).append h3).append h4, ?_, ?_, ?_, ?_⟩
  · exact hconn
  · simp [s4, s3, s2, s1, fds]
  · simp [s4, s3, s2]
  · simp [s4]

theorem Loop.bytes {s : Global ι} {i : ι} {d : List Byte} (h : Loop s i d) :
    ∃ as tr s', Run prog s as tr s' ∧ output tr = d ∧ accepted tr = [] ∧ Loop s' i [] := by
  induction d generalizing s with
  | nil => exact ⟨[], [], s, .nil, rfl, rfl, h⟩
  | cons b d ih =>
    obtain ⟨as, s', hr, h'⟩ := h.byte
    obtain ⟨bs, tr, s'', hr', hout, hacc, hend⟩ := ih h'
    refine ⟨as ++ bs, [.output [b]] ++ tr, s'', hr.append hr', ?_, ?_, hend⟩
    · rw [output_append, hout]
      rfl
    · rw [accepted_append, hacc]
      rfl

/-- at the end of its descriptor the client leaves, and the server goes back to `accept` -/
theorem Loop.leave {s : Global ι} {i : ι} (h : Loop s i []) : ∃ as s', Run prog s as [] s' ∧ AtAccept s' := by
  obtain ⟨hconn, hdata, hclient, hserver⟩ := h
  let s1 := s.move (.client i) s.sh ⟨.exit, (s.loc (.client i)).buf⟩
  have h1 : Run prog s [(.client i, 0)] [] s1 := .single (by simp [prog, hclient, hdata])
  let gone := Function.update s.sh.conn i ⟨[.server], [], []⟩
  let s2 := s1.move (.client i) { s1.sh with conn := gone } ⟨.ended, (s.loc (.client i)).buf⟩
  have h2 : Run prog s1 [(.client i, 0)] [] s2 := .single (by simp [prog, s1, gone, closeWrite, hconn])
  let s3 := s2.move .server s2.sh ⟨.close i, (s.loc .server).buf⟩
  have h3 : Run prog s2 [(.server, 0)] [] s3 := .single (by
    simp [prog, hserver, s2, s1, gone, readSome, fill])
  let s4 := s3.move .server { s3.sh with conn := Function.update gone i ⟨[], [], []⟩ } ⟨.accept, (s.loc .server).buf⟩
  have h4 : Run prog s3 [(.server, 0)] [] s4 := .single (by simp [prog, s3, s2, gone, closeRead])
  exact ⟨_, s4, ((h1.append h2).append h3).append h4, by simp [AtAccept, s4]⟩

/-- the server starts, client `i` connects, and the server accepts it -/
theorem start_loop (fds : ι → Fileno → Source) (buf : Proc ι → Vector Byte BUF_SIZE) (i : ι) :
    ∃ as s, Run prog (start fds buf) as [.connected i, .accepted i] s ∧ Loop s i (fds i .stdout).data := by
  let s := start fds buf
  let listening : Shared ι := { s.sh with listening := true }
  have hserver : Alone prog .server s.sh (s.loc .server) [] listening ⟨.accept, (buf .server).toList⟩ :=
    .silent (c := 0) rfl (.silent (c := 0) rfl (.single (c := 0) rfl))
  obtain ⟨as, h1⟩ := hserver.run
  let s1 := s.move .server listening ⟨.accept, (buf .server).toList⟩
  let conn := Function.update s1.sh.conn i ⟨[.server], [.client i], []⟩
  let s2 := s1.move (.client i) { listening with queue := [i], conn := conn } ⟨.clientRead, (buf (.client i)).toList⟩
  have h2 : Run prog s1 [(.client i, 0), (.client i, 0)] [.connected i] s2 := by
    have hc : Run prog s1 [(.client i, 0)] [] (s1.move (.client i) listening ⟨.connect, (buf (.client i)).toList⟩) :=
      .single (by simp [prog, s1, s, start])
    have hq : s2 = (s1.move (.client i) listening ⟨.connect, (buf (.client i)).toList⟩).move (.client i) s2.sh
        ⟨.clientRead, (buf (.client i)).toList⟩ := by simp [s2]
    rw [hq]
    exact hc.append (.single (by simp [prog, s2, listening, conn, s1, s, start]))
  let s3 := s2.move .server { s2.sh with queue := [] } ⟨.read i, (buf .server).toList⟩
  have h3 : Run prog s2 [(.server, 0)] [.accepted i] s3 := .single (by simp [prog, s2, s1])
  refine ⟨_, s3, (h1.append h2).append h3, ?_, ?_, ?_, ?_⟩
  · simp [s3, s2, conn]
  · rfl
  · simp [s3, s2]
  · simp [s3]

/-- what the program is for: the clients' standard input comes out, in every run -/
def Transfers (fds : ι → Fileno → Source) (buf : Proc ι → Vector Byte BUF_SIZE) : Prop :=
  ∀ as tr s, Run prog (start fds buf) as tr s → Transferred (fun i => (fds i .stdin).data) tr s

/-- **Transfer.** The server's output is the standard input of the clients, in the order of acceptance, in every run if
and only if what each client reads from its standard output is what its standard input holds. -/
theorem transfer_iff (fds : ι → Fileno → Source) (buf : Proc ι → Vector Byte BUF_SIZE) :
    Transfers fds buf ↔ ∀ i, (fds i .stdout).data = (fds i .stdin).data := by
  constructor
  · intro h i
    obtain ⟨as, s, hr, hloop⟩ := start_loop fds buf i
    obtain ⟨bs, tr, s', hr', hout, hacc, hend⟩ := hloop.bytes
    obtain ⟨cs, s'', hr'', hat⟩ := hend.leave
    have hrun := (hr.append hr').append hr''
    have hout' : output ([.connected i, .accepted i] ++ tr ++ []) = (fds i .stdout).data := by
      rw [List.append_nil, output_append, hout]
      rfl
    have hacc' : accepted ([.connected i, .accepted i] ++ tr ++ []) = [i] := by
      rw [List.append_nil, accepted_append, hacc]
      rfl
    calc (fds i .stdout).data = output ([.connected i, .accepted i] ++ tr ++ []) := hout'.symm
      _ = (accepted ([.connected i, .accepted i] ++ tr ++ [])).flatMap fun j => (fds j .stdin).data :=
        (h _ _ _ hrun).complete hat
      _ = (fds i .stdin).data := by rw [hacc', List.flatMap_singleton]
  · intro h as tr s hr
    have hsame : (fun i => (fds i .stdout).data) = fun i => (fds i .stdin).data := funext h
    rw [← hsame]
    exact copied hr

/-- a client with a letter at its standard input, whose standard output cannot be read -/
theorem letter_lost : ¬ Transfers (fun (_ : Unit) => fun | .stdin => ⟨[97], false⟩ | .stdout => ⟨[], true⟩)
    (fun _ => Vector.replicate BUF_SIZE 0) := by
  intro h
  obtain ⟨s, tr, hr, hat, hout, hacc⟩ := exec_any_run prog
    (start (fun (_ : Unit) => fun | .stdin => ⟨[97], false⟩ | .stdout => ⟨[], true⟩)
      fun _ => Vector.replicate BUF_SIZE 0)
    [(.server, 0), (.server, 0), (.server, 0), (.client (), 0), (.client (), 0), (.client (), 0), (.client (), 0),
      (.server, 0), (.server, 0), (.server, 0)]
    (fun s tr => (s.loc .server).pc = .accept ∧ output tr = [] ∧ accepted tr = [()]) (by decide +kernel)
  have hall := (h _ _ _ hr).complete hat
  rw [hout, hacc] at hall
  cases hall

end OsPractice.UsXfr
