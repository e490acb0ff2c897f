/-
The datagram example (`sockets-UNIX-domain/slow-reader-fast-sender`): servers that read one message after another, and
clients that send without end. Any number of both are started, at any time, and each can be killed at any time.

Both sides build the address in a structure of which `memset` clears 16 bytes only, and `strncpy` copies the path
without its last character. The server removes the file with the whole path before it binds: it never removes the
socket that it or another server has bound.

Each system call is one step, and so is each output. Of the errors only those are modelled that the processes cause
each other, and a file that cannot be removed. The queue of a socket holds `capacity` messages; a send to a full queue
waits.

Results:
- `cstring_sunPath`: the address, whatever was in the structure before;
- `one_server`: at most one server ever serves, and when it has ended nothing is sent any more;
- `messages_in_order`: what the server receives is what the clients have sent, whole and in order, but for the messages
  in its queue.
-/
import OsPractice.Core.Interleave
import OsPractice.Core.CString

namespace OsPractice.SlowReader

open Interleave Bytes CString

/-! ## The program -/

def BUF_SIZE : ℕ := 100

/-- `"/tmp/reciever"` -/
def sockpath : List Byte := [47, 116, 109, 112, 47, 114, 101, 99, 105, 101, 118, 101, 114]

/-- `"I LOVE GREEN APPLES AND LONG MESSAGES"` -/
def msg : List Byte :=
  [73, 32, 76, 79, 86, 69, 32, 71, 82, 69, 69, 78, 32, 65, 80, 80, 76, 69, 83, 32, 65, 78, 68, 32, 76, 79, 78, 71, 32,
    77, 69, 83, 83, 65, 71, 69, 83]

/-- `addr.sun_path` after `memset`, which clears `sizeof(struct sockaddr)` bytes, two of them `sun_family`'s -/
def sunPath (garbage : Vector Byte 108) : List Byte :=
  strncpy (fill garbage.toList (List.replicate 14 0)) sockpath (sockpath.length - 1)

/-- the runs of the server and of the client -/
inductive Proc (σ ι : Type) where
  | server (i : σ)
  | client (j : ι)
  deriving DecidableEq, Repr

inductive File (σ : Type) where
  | socket (i : σ)
  | other (removable : Bool)
  deriving DecidableEq, Repr

structure Shared (σ ι : Type) where
  fs : List Byte → Option (File σ)
  /-- the queue of a server's socket, as long as it is open -/
  sock : σ → Option (List (ι × List Byte))

inductive Pc where
  | socket
  | remove
  | bind
  | serve
  | recvfrom
  | sendto
  | report (numBytes : ℕ)
  | ended
  deriving DecidableEq, Repr

/-- whether the process goes on, or is killed -/
inductive Choice where
  | go
  | kill
  deriving DecidableEq, Repr

inductive Errno where
  | ENOTEMPTY
  | EADDRINUSE
  | ENOENT
  | ECONNREFUSED
  deriving DecidableEq, Repr

inductive Event (σ ι : Type) where
  /-- "server: waiting for messages..." -/
  | serving (i : σ)
  /-- the kernel has taken a message, and has given it to the server -/
  | accepted (m : ι × List Byte)
  | delivered (m : ι × List Byte)
  /-- "client: sent %d bytes" -/
  | sent (j : ι) (numBytes : ℕ)
  /-- "server: recieved %d bytes" -/
  | received (i : σ) (numBytes : ℕ)
  /-- `handle_error` -/
  | failed (p : Proc σ ι) (e : Errno)
  deriving DecidableEq, Repr

variable {σ ι : Type} [DecidableEq σ]

def Shared.setSock (sh : Shared σ ι) (i : σ) (q : Option (List (ι × List Byte))) : Shared σ ι :=
  { sh with sock := Function.update sh.sock i q }

def server (garbage : Vector Byte 108) (i : σ) (sh : Shared σ ι) : Pc → Option (Shared σ ι × Pc × List (Event σ ι))
  | .socket => some (sh.setSock i (some []), .remove, [])
  | .remove =>
    match sh.fs sockpath with
    | none => some (sh, .bind, [])
    | some (.other false) => some (sh.setSock i none, .ended, [.failed (.server i) .ENOTEMPTY])
    | some _ => some ({ sh with fs := Function.update sh.fs sockpath none }, .bind, [])
  | .bind =>
    match sh.fs (cstring (sunPath garbage)) with
    | some _ => some (sh.setSock i none, .ended, [.failed (.server i) .EADDRINUSE])
    | none => some ({ sh with fs := Function.update sh.fs (cstring (sunPath garbage)) (some (.socket i)) }, .serve, [])
  | .serve => some (sh, .recvfrom, [.serving i])
  | .recvfrom =>
    match sh.sock i with
    | some (m :: q) => some (sh.setSock i (some q), .report (m.2.take BUF_SIZE).length, [.delivered m])
    | _ => none
  | .report numBytes => some (sh, .recvfrom, [.received i numBytes])
  | _ => none

def client (capacity : ℕ) (garbage : Vector Byte 108) (j : ι) (sh : Shared σ ι) :
    Pc → Option (Shared σ ι × Pc × List (Event σ ι))
  | .socket => some (sh, .sendto, [])
  | .sendto =>
    match sh.fs (cstring (sunPath garbage)) with
    | none => some (sh, .ended, [.failed (.client j) .ENOENT])
    | some (.other _) => some (sh, .ended, [.failed (.client j) .ECONNREFUSED])
    | some (.socket i) =>
      match sh.sock i with
      | none => some (sh, .ended, [.failed (.client j) .ECONNREFUSED])
      | some q =>
        if q.length < capacity then some (sh.setSock i (some (q ++ [(j, msg)])), .report msg.length, [.accepted (j, msg)])
        else none
  | .report numBytes => some (sh, .sendto, [.sent j numBytes])
  | _ => none

def kill (p : Proc σ ι) (sh : Shared σ ι) : Pc → Option (Shared σ ι × Pc × List (Event σ ι))
  | .ended => none
  | _ =>
    match p with
    | .server i => some (sh.setSock i none, .ended, [])
    | .client _ => some (sh, .ended, [])

def prog (capacity : ℕ) (garbage : Proc σ ι → Vector Byte 108) : Prog (Proc σ ι) Choice (Shared σ ι) Pc (Event σ ι) :=
  fun p c sh pc =>
    match c, p with
    | .kill, p => kill p sh pc
    | .go, .server i => server (garbage (.server i)) i sh pc
    | .go, .client j => client capacity (garbage (.client j)) j sh pc

/-- before any process has run; a file can be removed or not -/
def start (files : List Byte → Option Bool) : St (Proc σ ι) (Shared σ ι) Pc :=
  ⟨⟨fun path => (files path).map .other, fun _ => none⟩, fun _ => .socket⟩

/-! ## The address -/

/-- the path that both sides use -/
def address : List Byte := sockpath.dropLast

/-- whatever the memory of the structure held -/
theorem cstring_sunPath (garbage : Vector Byte 108) : cstring (sunPath garbage) = address := by
  have hpath : sunPath garbage = address ++ 0 :: (0 :: garbage.toList.drop 14) := by
    simp [sunPath, strncpy, fill, sockpath, address, List.replicate]
  rw [hpath]
  exact cstring_append (by decide) _

theorem sockpath_ne : sockpath ≠ address := by decide

/-! ## What has happened -/

def Event.servingOf : Event σ ι → Option σ
  | .serving i => some i
  | _ => none

def Event.acceptedOf : Event σ ι → Option (ι × List Byte)
  | .accepted m => some m
  | _ => none

def Event.deliveredOf : Event σ ι → Option (ι × List Byte)
  | .delivered m => some m
  | _ => none

def Event.receivedOf : Event σ ι → Option ℕ
  | .received _ n => some n
  | _ => none

/-- a line that says how many bytes a message has -/
def Event.IsLine (n : ℕ) : Event σ ι → Prop
  | .sent _ k => k = n
  | .received _ k => k = n
  | _ => False

/-- the servers that have begun to serve -/
def servings (tr : List (Event σ ι)) : List σ := tr.filterMap Event.servingOf

/-- the messages that have been sent -/
def accepted (tr : List (Event σ ι)) : List (ι × List Byte) := tr.filterMap Event.acceptedOf

/-- the messages that have been received -/
def delivered (tr : List (Event σ ι)) : List (ι × List Byte) := tr.filterMap Event.deliveredOf

/-- the numbers that servers have printed -/
def received (tr : List (Event σ ι)) : List ℕ := tr.filterMap Event.receivedOf

section

omit [DecidableEq σ]

theorem servings_append (tr es : List (Event σ ι)) : servings (tr ++ es) = servings tr ++ servings es :=
  List.filterMap_append

theorem accepted_append (tr es : List (Event σ ι)) : accepted (tr ++ es) = accepted tr ++ accepted es :=
  List.filterMap_append

theorem delivered_append (tr es : List (Event σ ι)) : delivered (tr ++ es) = delivered tr ++ delivered es :=
  List.filterMap_append

theorem received_append (tr es : List (Event σ ι)) : received (tr ++ es) = received tr ++ received es :=
  List.filterMap_append

end

/-! ## The invariant -/

/-- the server has bound its socket -/
def Bound : Pc → Prop
  | .serve | .recvfrom | .report _ => True
  | _ => False

/-- what the server says of its socket, of the servers that have begun to serve, and of what it has printed -/
def At (i : σ) (started : List σ) (messages lines : ℕ) : Pc → Prop
  | .serve => started = [] ∧ messages = lines
  | .recvfrom => started = [i] ∧ messages = lines
  | .report _ => started = [i] ∧ messages = lines + 1
  | .ended => (started = [] ∨ started = [i]) ∧ lines ≤ messages ∧ messages ≤ lines + 1
  | _ => False

/-- the books of the messages, where `rest` are those that have been sent and not received -/
structure Books (capacity : ℕ) (tr : List (Event σ ι)) (s : St (Proc σ ι) (Shared σ ι) Pc)
    (rest : List (ι × List Byte)) : Prop where
  log : accepted tr = delivered tr ++ rest
  room : rest.length ≤ capacity
  queue : ∀ i q, s.sh.fs address = some (.socket i) → s.sh.sock i = some q → q = rest
  whole : ∀ m ∈ accepted tr, m.2 = msg

structure Inv (capacity : ℕ) (files : List Byte → Option Bool) (tr : List (Event σ ι))
    (s : St (Proc σ ι) (Shared σ ι) Pc) : Prop where
  kept : ∀ b, files address = some b → s.sh.fs address = some (.other b)
  bound : ∀ i, Bound (s.loc (.server i)) → s.sh.fs address = some (.socket i)
  isOpen : ∀ i, s.loc (.server i) ≠ .socket → s.loc (.server i) ≠ .ended → (s.sh.sock i).isSome
  closed : ∀ i, s.loc (.server i) = .ended → s.sh.sock i = none
  unused : ∀ i q, s.sh.sock i = some q → ¬ Bound (s.loc (.server i)) → q = []
  owner : ∀ i, s.sh.fs address = some (.socket i) →
    At i (servings tr) (delivered tr).length (received tr).length (s.loc (.server i))
  unbound : (∀ i, s.sh.fs address ≠ some (.socket i)) → servings tr = [] ∧ accepted tr = [] ∧ received tr = []
  books : ∃ rest, Books capacity tr s rest
  reports : ∀ p n, s.loc p = .report n → n = msg.length
  lines : ∀ e ∈ tr, ∀ n, e.IsLine n → n = msg.length

omit [DecidableEq σ] in
theorem inv_start (capacity : ℕ) (files : List Byte → Option Bool) :
    Inv capacity files [] (start files : St (Proc σ ι) (Shared σ ι) Pc) where
  kept b hb := by simp [start, hb]
  bound i hi := hi.elim
  isOpen i hi := absurd rfl hi
  closed i _ := rfl
  unused i q hq := by cases hq
  owner i hi := by
    obtain ⟨b, -, hb⟩ := Option.map_eq_some_iff.1 hi
    cases hb
  unbound _ := ⟨rfl, rfl, rfl⟩
  books := ⟨[], rfl, Nat.zero_le _, fun i q _ hq => by (cases hq), by simp [accepted]⟩
  reports p n hp := by cases hp
  lines e he := by cases he

variable {capacity : ℕ} {files : List Byte → Option Bool} {tr es : List (Event σ ι)}
  {s : St (Proc σ ι) (Shared σ ι) Pc} {i : σ} {j : ι} {x : Shared σ ι} {pc : Pc}

omit [DecidableEq σ] in
theorem At.ended {started : List σ} {messages lines : ℕ} (h : At i started messages lines pc) :
    At i started messages lines .ended := by
  cases pc with
  | serve =>
    obtain ⟨hstarted, hlines⟩ := h
    exact ⟨.inl hstarted, by omega, by omega⟩
  | recvfrom =>
    obtain ⟨hstarted, hlines⟩ := h
    exact ⟨.inr hstarted, by omega, by omega⟩
  | report n =>
    obtain ⟨hstarted, hlines⟩ := h
    exact ⟨.inr hstarted, by omega, by omega⟩
  | ended => exact h
  | socket | remove | bind | sendto => exact h.elim

variable [DecidableEq ι]

/-- events of no message and no server -/
structure Silent (es : List (Event σ ι)) : Prop where
  servings : servings es = []
  accepted : accepted es = []
  delivered : delivered es = []
  received : received es = []

omit [DecidableEq σ] [DecidableEq ι] in
theorem silent_nil : Silent ([] : List (Event σ ι)) := ⟨rfl, rfl, rfl, rfl⟩

omit [DecidableEq σ] [DecidableEq ι] in
theorem silent_failed (p : Proc σ ι) (e : Errno) : Silent [.failed p e] := ⟨rfl, rfl, rfl, rfl⟩

omit [DecidableEq σ] [DecidableEq ι] in
theorem Silent.sums (h : Silent es) (tr : List (Event σ ι)) :
    SlowReader.servings (tr ++ es) = SlowReader.servings tr ∧ SlowReader.accepted (tr ++ es) = SlowReader.accepted tr ∧
    SlowReader.delivered (tr ++ es) = SlowReader.delivered tr ∧
    SlowReader.received (tr ++ es) = SlowReader.received tr := by
  rw [servings_append, accepted_append, delivered_append, received_append, h.servings, h.accepted, h.delivered,
    h.received]
  simp only [List.append_nil, and_self]

omit [DecidableEq σ] [DecidableEq ι] in
theorem Silent.books {rest : List (ι × List Byte)} {s' : St (Proc σ ι) (Shared σ ι) Pc} (h : Silent es)
    (hb : Books capacity tr s rest)
    (hqueue : ∀ i q, s'.sh.fs address = some (.socket i) → s'.sh.sock i = some q →
      s.sh.fs address = some (.socket i) ∧ s.sh.sock i = some q) : Books capacity (tr ++ es) s' rest := by
  obtain ⟨-, ha, hd, -⟩ := h.sums tr
  refine ⟨by rw [ha, hd]; exact hb.log, hb.room, fun i q hi hq => ?_, by rw [ha]; exact hb.whole⟩
  obtain ⟨hi', hq'⟩ := hqueue i q hi hq
  exact hb.queue i q hi' hq'

/-- the events and the place that a step adds -/
theorem Inv.says (h : Inv capacity files tr s) (p : Proc σ ι) (hpc : ∀ n, pc = .report n → n = msg.length)
    (hes : ∀ e ∈ es, ∀ n, e.IsLine n → n = msg.length) :
    (∀ q n, (s.move p x pc).loc q = .report n → n = msg.length) ∧
      ∀ e ∈ tr ++ es, ∀ n, e.IsLine n → n = msg.length := by
  refine ⟨s.forall_move (p := fun _ pc => ∀ n, pc = .report n → n = msg.length) x hpc fun u _ => h.reports u, ?_⟩
  exact fun e he => (List.mem_append.1 he).elim (h.lines e) (hes e)

/-- a step of a client that leaves the sockets alone -/
theorem Inv.clientStep (h : Inv capacity files tr s) (hsilent : Silent es) (hpc : ∀ n, pc = .report n → n = msg.length)
    (hes : ∀ e ∈ es, ∀ n, e.IsLine n → n = msg.length) :
    Inv capacity files (tr ++ es) (s.move (.client j) s.sh pc) := by
  have hloc : ∀ i, (s.move (.client j) s.sh pc).loc (.server i) = s.loc (.server i) := fun i => by
    rw [St.move_loc, Function.update_of_ne (by simp)]
  obtain ⟨hs, ha, hd, hr⟩ := hsilent.sums tr
  obtain ⟨hreports, hlines⟩ := h.says (x := s.sh) (.client j) hpc hes
  refine ⟨h.kept, ?_, ?_, ?_, ?_, ?_, ?_, ?_, hreports, hlines⟩
  · intro i hi
    rw [hloc] at hi
    exact h.bound i hi
  · intro i
    rw [hloc]
    exact h.isOpen i
  · intro i hi
    rw [hloc] at hi
    exact h.closed i hi
  · intro i q hq hi
    rw [hloc] at hi
    exact h.unused i q hq hi
  · intro i hi
    rw [hs, hd, hr, hloc]
    exact h.owner i hi
  · rw [hs, ha, hr]
    exact h.unbound
  · obtain ⟨rest, hb⟩ := h.books
    exact ⟨rest, hsilent.books hb fun i q hi hq => ⟨hi, hq⟩⟩

/-- a step of a server that does not change what is bound -/
theorem Inv.serverStep (h : Inv capacity files tr s) (hfs : x.fs address = s.sh.fs address)
    (hsock : ∀ k, k ≠ i → x.sock k = s.sh.sock k) (hbound : Bound pc → Bound (s.loc (.server i)))
    (hopen : pc ≠ .ended → (x.sock i).isSome) (hclosed : pc = .ended → x.sock i = none)
    (hunused : ∀ q, x.sock i = some q → ¬ Bound pc → q = [])
    (howner : s.sh.fs address = some (.socket i) →
      At i (servings (tr ++ es)) (delivered (tr ++ es)).length (received (tr ++ es)).length pc)
    (hother : s.sh.fs address ≠ some (.socket i) → Silent es)
    (hbooks : ∃ rest, Books capacity (tr ++ es) (s.move (.server i) x pc) rest)
    (hpc : ∀ n, pc = .report n → n = msg.length) (hes : ∀ e ∈ es, ∀ n, e.IsLine n → n = msg.length) :
    Inv capacity files (tr ++ es) (s.move (.server i) x pc) := by
  have hself : (s.move (.server i) x pc).loc (.server i) = pc := by rw [St.move_loc, Function.update_self]
  have hloc : ∀ k, k ≠ i → (s.move (.server i) x pc).loc (.server k) = s.loc (.server k) := fun k hk => by
    rw [St.move_loc, Function.update_of_ne (by simpa using hk)]
  obtain ⟨hreports, hlines⟩ := h.says (x := x) (.server i) hpc hes
  refine ⟨?_, ?_, ?_, ?_, ?_, ?_, ?_, hbooks, hreports, hlines⟩
  · intro b hb
    rw [St.move_sh, hfs]
    exact h.kept b hb
  · intro k hk
    rw [St.move_sh, hfs]
    by_cases hki : k = i
    · subst hki
      rw [hself] at hk
      exact h.bound k (hbound hk)
    · rw [hloc k hki] at hk
      exact h.bound k hk
  · intro k hk hk'
    by_cases hki : k = i
    · subst hki
      rw [hself] at hk'
      exact hopen hk'
    · rw [hloc k hki] at hk hk'
      rw [St.move_sh, hsock k hki]
      exact h.isOpen k hk hk'
  · intro k hk
    by_cases hki : k = i
    · subst hki
      rw [hself] at hk
      exact hclosed hk
    · rw [hloc k hki] at hk
      rw [St.move_sh, hsock k hki]
      exact h.closed k hk
  · intro k q hq hk
    by_cases hki : k = i
    · subst hki
      rw [hself] at hk
      exact hunused q hq hk
    · rw [hloc k hki] at hk
      rw [St.move_sh, hsock k hki] at hq
      exact h.unused k q hq hk
  · intro k hk
    rw [St.move_sh, hfs] at hk
    by_cases hki : k = i
    · subst hki
      rw [hself]
      exact howner hk
    · have hno : s.sh.fs address ≠ some (.socket i) := by
        rw [hk]
        simpa using hki
      obtain ⟨hs, -, hd, hr⟩ := (hother hno).sums tr
      rw [hloc k hki, hs, hd, hr]
      exact h.owner k hk
  · intro hno
    rw [St.move_sh, hfs] at hno
    obtain ⟨hs, ha, -, hr⟩ := (hother (hno i)).sums tr
    rw [hs, ha, hr]
    exact h.unbound hno

/-- a server goes on that has not bound its socket yet -/
theorem Inv.unboundStep (h : Inv capacity files tr s) (hfs : x.fs address = s.sh.fs address)
    (hsock : ∀ k, k ≠ i → x.sock k = s.sh.sock k) (hold : ∀ a b c, ¬ At i a b c (s.loc (.server i)))
    (hnew : ¬ Bound pc) (hne : pc ≠ .ended) (hempty : x.sock i = some []) (hpc : ∀ n, pc ≠ .report n) :
    Inv capacity files (tr ++ []) (s.move (.server i) x pc) := by
  have hno : s.sh.fs address ≠ some (.socket i) := fun hi => hold _ _ _ (h.owner i hi)
  refine h.serverStep hfs hsock (fun hb => absurd hb hnew) (fun _ => by rw [hempty]; rfl) (fun he => absurd he hne)
    (fun q hq _ => by rw [hempty] at hq; exact (Option.some.inj hq).symm) (fun hi => absurd hi hno)
    (fun _ => silent_nil) ?_ (fun n hn => absurd hn (hpc n)) (fun e he => by cases he)
  obtain ⟨rest, hb⟩ := h.books
  refine ⟨rest, silent_nil.books hb fun k q hk hq => ?_⟩
  rw [St.move_sh, hfs] at hk
  have hki : k ≠ i := by
    rintro rfl
    exact hno hk
  rw [St.move_sh, hsock k hki] at hq
  exact ⟨hk, hq⟩

/-- a server ends, by itself or killed -/
theorem Inv.endServer (h : Inv capacity files tr s) (hsilent : Silent es) (hes : ∀ e ∈ es, ∀ n, ¬ e.IsLine n) :
    Inv capacity files (tr ++ es) (s.move (.server i) (s.sh.setSock i none) .ended) := by
  have hsock : ∀ k, k ≠ i → (s.sh.setSock i none).sock k = s.sh.sock k := fun k hk => Function.update_of_ne hk _ _
  have hnone : (s.sh.setSock i none).sock i = none := Function.update_self _ _ _
  refine h.serverStep rfl hsock (fun hb => hb.elim) (fun he => absurd rfl he) (fun _ => hnone)
    (fun q hq _ => by rw [hnone] at hq; cases hq) (fun hi => ?_) (fun _ => hsilent) ?_ (fun n hn => by cases hn)
    (fun e he n hn => absurd hn (hes e he n))
  · obtain ⟨hs, -, hd, hr⟩ := hsilent.sums tr
    rw [hs, hd, hr]
    exact (h.owner i hi).ended
  · obtain ⟨rest, hb⟩ := h.books
    refine ⟨rest, hsilent.books hb fun k q hk hq => ⟨hk, ?_⟩⟩
    by_cases hki : k = i
    · rw [hki, St.move_sh, hnone] at hq
      cases hq
    · rwa [St.move_sh, hsock k hki] at hq

/-- a server binds its socket -/
theorem Inv.bindServer (h : Inv capacity files tr s) (hpc : s.loc (.server i) = .bind) (hfree : s.sh.fs address = none)
    (hfs : x.fs address = some (.socket i)) (hsock : x.sock = s.sh.sock) :
    Inv capacity files (tr ++ []) (s.move (.server i) x .serve) := by
  have hno : ∀ k, s.sh.fs address ≠ some (.socket k) := fun k hk => by
    rw [hfree] at hk
    cases hk
  have hunbound : ∀ k, ¬ Bound (s.loc (.server k)) := fun k hk => hno k (h.bound k hk)
  have hself : Function.update s.loc (.server i) Pc.serve (.server i) = .serve := Function.update_self _ _ _
  have hloc : ∀ k, k ≠ i → Function.update s.loc (.server i) Pc.serve (.server k) = s.loc (.server k) := fun k hk =>
    Function.update_of_ne (by simpa using hk) _ _
  obtain ⟨hs, ha, hr⟩ := h.unbound hno
  obtain ⟨rest, hb⟩ := h.books
  have hlog := hb.log
  rw [ha] at hlog
  obtain ⟨hd, rfl⟩ := List.append_eq_nil_iff.1 hlog.symm
  have hserve : ∀ n, Pc.serve = .report n → n = msg.length := fun n hn => by cases hn
  have hnone : ∀ e ∈ ([] : List (Event σ ι)), ∀ n, e.IsLine n → n = msg.length := fun e he => by cases he
  obtain ⟨hreports, hlines⟩ := h.says (x := x) (.server i) hserve hnone
  rw [List.append_nil] at hlines ⊢
  refine ⟨?_, ?_, ?_, ?_, ?_, ?_, ?_, ⟨[], ?_⟩, hreports, hlines⟩
  · intro b hb
    rw [h.kept b hb] at hfree
    cases hfree
  · intro k hk
    rw [St.move_loc] at hk
    rw [St.move_sh, hfs]
    by_cases hki : k = i
    · rw [hki]
    · rw [hloc k hki] at hk
      exact absurd hk (hunbound k)
  · intro k hk hk'
    rw [St.move_loc] at hk hk'
    rw [St.move_sh, hsock]
    by_cases hki : k = i
    · rw [hki]
      exact h.isOpen i (by rw [hpc]; simp) (by rw [hpc]; simp)
    · rw [hloc k hki] at hk hk'
      exact h.isOpen k hk hk'
  · intro k hk
    rw [St.move_loc] at hk
    rw [St.move_sh, hsock]
    by_cases hki : k = i
    · rw [hki, hself] at hk
      cases hk
    · rw [hloc k hki] at hk
      exact h.closed k hk
  · intro k q hq _
    rw [St.move_sh, hsock] at hq
    exact h.unused k q hq (hunbound k)
  · intro k hk
    rw [St.move_sh, hfs] at hk
    obtain rfl : i = k := by simpa using hk
    rw [St.move_loc, hself, hs, hd, hr]
    exact ⟨rfl, rfl⟩
  · intro hno'
    exact absurd hfs (hno' i)
  · refine ⟨by rw [ha, hd, List.append_nil], Nat.zero_le _, fun k q _ hq => ?_, hb.whole⟩
    rw [St.move_sh, hsock] at hq
    exact h.unused k q hq (hunbound k)

/-- a server receives the first message of its queue -/
theorem Inv.receive (h : Inv capacity files tr s) (hpc : s.loc (.server i) = .recvfrom) {m : ι × List Byte}
    {q : List (ι × List Byte)} (hq : s.sh.sock i = some (m :: q)) :
    Inv capacity files (tr ++ [.delivered m])
      (s.move (.server i) (s.sh.setSock i (some q)) (.report (m.2.take BUF_SIZE).length)) := by
  have hi : s.sh.fs address = some (.socket i) := h.bound i (by rw [hpc]; trivial)
  have hsock : ∀ k, k ≠ i → (s.sh.setSock i (some q)).sock k = s.sh.sock k := fun k hk => Function.update_of_ne hk _ _
  have hnew : (s.sh.setSock i (some q)).sock i = some q := Function.update_self _ _ _
  have hs : servings (tr ++ [.delivered m]) = servings tr := by rw [servings_append]; exact List.append_nil _
  have ha : accepted (tr ++ [.delivered m]) = accepted tr := by rw [accepted_append]; exact List.append_nil _
  have hr : received (tr ++ [.delivered m]) = received tr := by rw [received_append]; exact List.append_nil _
  have hd : delivered (tr ++ [.delivered m]) = delivered tr ++ [m] := by rw [delivered_append]; rfl
  obtain ⟨rest, hb⟩ := h.books
  obtain rfl : m :: q = rest := hb.queue i _ hi hq
  have hmsg : m.2 = msg := hb.whole m (by rw [hb.log]; exact List.mem_append_right _ List.mem_cons_self)
  have hat := h.owner i hi
  rw [hpc] at hat
  obtain ⟨hstarted, hcount⟩ := hat
  refine h.serverStep rfl hsock (fun _ => by rw [hpc]; trivial) (fun _ => by rw [hnew]; rfl) (fun he => by cases he)
    (fun q' _ hb => absurd trivial hb) (fun _ => ?_) (fun hno => absurd hi hno) ⟨q, ?_⟩ (fun n hn => ?_)
    (fun e he n hn => ?_)
  · rw [hs, hd, hr, List.length_append, hcount]
    exact ⟨hstarted, rfl⟩
  · have hroom := hb.room
    rw [List.length_cons] at hroom
    refine ⟨by rw [ha, hd, hb.log, List.append_assoc]; rfl, by omega, fun k q' hk hq' => ?_, by rw [ha]; exact hb.whole⟩
    obtain rfl : i = k := by
      rw [St.move_sh] at hk
      exact File.socket.inj (Option.some.inj (hi.symm.trans hk))
    rw [St.move_sh, hnew] at hq'
    exact (Option.some.inj hq').symm
  · rw [← Pc.report.inj hn, hmsg]
    rfl
  · obtain rfl := List.mem_singleton.1 he
    exact hn.elim

/-- a message is put into the queue of the server -/
theorem Inv.send (h : Inv capacity files tr s) (hi : s.sh.fs address = some (.socket i)) {q : List (ι × List Byte)}
    (hq : s.sh.sock i = some q) (hroom : q.length < capacity) :
    Inv capacity files (tr ++ [.accepted (j, msg)])
      (s.move (.client j) (s.sh.setSock i (some (q ++ [(j, msg)]))) (.report msg.length)) := by
  have hloc : ∀ k, (s.move (.client j) (s.sh.setSock i (some (q ++ [(j, msg)]))) (.report msg.length)).loc (.server k) =
      s.loc (.server k) := fun k => by rw [St.move_loc, Function.update_of_ne (by simp)]
  have hsock : ∀ k, k ≠ i → (s.sh.setSock i (some (q ++ [(j, msg)]))).sock k = s.sh.sock k := fun k hk =>
    Function.update_of_ne hk _ _
  have hnew : (s.sh.setSock i (some (q ++ [(j, msg)]))).sock i = some (q ++ [(j, msg)]) := Function.update_self _ _ _
  have hs : servings (tr ++ [.accepted (j, msg)]) = servings tr := by rw [servings_append]; exact List.append_nil _
  have ha : accepted (tr ++ [.accepted (j, msg)]) = accepted tr ++ [(j, msg)] := by rw [accepted_append]; rfl
  have hr : received (tr ++ [.accepted (j, msg)]) = received tr := by rw [received_append]; exact List.append_nil _
  have hd : delivered (tr ++ [.accepted (j, msg)]) = delivered tr := by rw [delivered_append]; exact List.append_nil _
  -- the socket is open, so the server has not ended
  have hbound : Bound (s.loc (.server i)) := by
    have hat := h.owner i hi
    cases hpc : s.loc (.server i) with
    | ended =>
      rw [h.closed i hpc] at hq
      cases hq
    | serve | recvfrom | report => trivial
    | socket | remove | bind | sendto =>
      rw [hpc] at hat
      exact hat.elim
  obtain ⟨rest, hb⟩ := h.books
  obtain rfl : q = rest := hb.queue i _ hi hq
  have hquiet : ∀ e ∈ [(Event.accepted (j, msg) : Event σ ι)], ∀ n, e.IsLine n → n = msg.length := by
    intro e he n hn
    obtain rfl := List.mem_singleton.1 he
    exact hn.elim
  obtain ⟨hreports, hlines⟩ := h.says (x := s.sh.setSock i (some (q ++ [(j, msg)]))) (.client j)
    (fun n hn => (Pc.report.inj hn).symm) hquiet
  refine ⟨h.kept, ?_, ?_, ?_, ?_, ?_, ?_, ⟨q ++ [(j, msg)], ?_⟩, hreports, hlines⟩
  · intro k hk
    rw [hloc] at hk
    exact h.bound k hk
  · intro k hk hk'
    rw [hloc] at hk hk'
    rw [St.move_sh]
    by_cases hki : k = i
    · rw [hki, hnew]
      rfl
    · rw [hsock k hki]
      exact h.isOpen k hk hk'
  · intro k hk
    rw [hloc] at hk
    rw [St.move_sh]
    by_cases hki : k = i
    · rw [hki] at hk
      rw [hk] at hbound
      exact hbound.elim
    · rw [hsock k hki]
      exact h.closed k hk
  · intro k q' hq' hk
    rw [hloc] at hk
    rw [St.move_sh] at hq'
    by_cases hki : k = i
    · rw [hki] at hk
      exact absurd hbound hk
    · rw [hsock k hki] at hq'
      exact h.unused k q' hq' hk
  · intro k hk
    rw [hloc, hs, hd, hr]
    exact h.owner k hk
  · exact fun hno => absurd hi (hno i)
  · refine ⟨by rw [ha, hd, hb.log, List.append_assoc], by simpa using hroom, fun k q' hk hq' => ?_, ?_⟩
    · obtain rfl : i = k := by
        rw [St.move_sh] at hk
        exact File.socket.inj (Option.some.inj (hi.symm.trans hk))
      rw [St.move_sh, hnew] at hq'
      exact (Option.some.inj hq').symm
    · intro m hm
      rw [ha] at hm
      rcases List.mem_append.1 hm with hm | hm
      · exact hb.whole m hm
      · rw [List.mem_singleton.1 hm]

/-! ## The steps -/

theorem server_step (h : Inv capacity files tr s) {garbage : Vector Byte 108}
    (hs : server garbage i s.sh (s.loc (.server i)) = some (x, pc, es)) :
    Inv capacity files (tr ++ es) (s.move (.server i) x pc) := by
  have hopen := h.isOpen i
  have hempty : ¬ Bound (s.loc (.server i)) → s.loc (.server i) ≠ .socket → s.loc (.server i) ≠ .ended →
      s.sh.sock i = some [] := by
    intro hbound hsocket hended
    obtain ⟨q, hq⟩ := Option.isSome_iff_exists.1 (hopen hsocket hended)
    rw [hq, h.unused i q hq hbound]
  cases hpc : s.loc (.server i) with
  | socket =>
    rw [hpc] at hs
    cases hs
    exact h.unboundStep rfl (fun k hk => Function.update_of_ne hk _ _) (fun a b c => by rw [hpc]; exact id) id
      (by simp) (Function.update_self _ _ _) (by simp)
  | remove =>
    have hnil := hempty (by rw [hpc]; exact id) (by rw [hpc]; simp) (by rw [hpc]; simp)
    have hold : ∀ a b c, ¬ At i a b c (s.loc (.server i)) := fun a b c => by rw [hpc]; exact id
    -- the file that is removed is not the socket
    have hkeep : Function.update s.sh.fs sockpath none address = s.sh.fs address :=
      Function.update_of_ne sockpath_ne.symm _ _
    rw [hpc] at hs
    simp only [server] at hs
    split at hs
    · cases hs
      exact h.unboundStep rfl (fun _ _ => rfl) hold id (by simp) hnil (by simp)
    · cases hs
      refine h.endServer (silent_failed _ _) fun e he n hn => ?_
      obtain rfl := List.mem_singleton.1 he
      exact hn
    · cases hs
      exact h.unboundStep hkeep (fun _ _ => rfl) hold id (by simp) hnil (by simp)
  | bind =>
    rw [hpc] at hs
    simp only [server, cstring_sunPath] at hs
    split at hs
    · cases hs
      refine h.endServer (silent_failed _ _) fun e he n hn => ?_
      obtain rfl := List.mem_singleton.1 he
      exact hn
    · rename_i hfree
      cases hs
      have hfs : Function.update s.sh.fs address (some (File.socket i)) address = some (.socket i) :=
        Function.update_self _ _ _
      exact h.bindServer hpc hfree hfs rfl
  | serve =>
    have hat := h.owner i (h.bound i (by rw [hpc]; trivial))
    rw [hpc] at hs hat
    cases hs
    obtain ⟨hstarted, hcount⟩ := hat
    have hd : delivered (tr ++ [.serving i]) = delivered tr := by rw [delivered_append]; exact List.append_nil _
    have hr : received (tr ++ [.serving i]) = received tr := by rw [received_append]; exact List.append_nil _
    have ha : accepted (tr ++ [.serving i]) = accepted tr := by rw [accepted_append]; exact List.append_nil _
    refine h.serverStep rfl (fun _ _ => rfl) (fun _ => by rw [hpc]; trivial)
      (fun _ => hopen (by rw [hpc]; simp) (by rw [hpc]; simp)) (fun he => by cases he) (fun _ _ hb => absurd trivial hb)
      (fun _ => ?_) (fun hno => absurd (h.bound i (by rw [hpc]; trivial)) hno) ?_ (fun n hn => by cases hn)
      (fun e he n hn => ?_)
    · rw [servings_append, hstarted, hd, hr]
      exact ⟨rfl, hcount⟩
    · obtain ⟨rest, hb⟩ := h.books
      exact ⟨rest, by rw [ha, hd]; exact hb.log, hb.room, hb.queue, by rw [ha]; exact hb.whole⟩
    · obtain rfl := List.mem_singleton.1 he
      exact hn.elim
  | recvfrom =>
    rw [hpc] at hs
    simp only [server] at hs
    split at hs
    · rename_i m q hq
      cases hs
      exact h.receive hpc hq
    · cases hs
  | report numBytes =>
    have hbytes := h.reports _ _ hpc
    have hat := h.owner i (h.bound i (by rw [hpc]; trivial))
    rw [hpc] at hs hat
    cases hs
    obtain ⟨hstarted, hcount⟩ := hat
    have hsv : servings (tr ++ [.received i numBytes]) = servings tr := by
      rw [servings_append]
      exact List.append_nil _
    have hd : delivered (tr ++ [.received i numBytes]) = delivered tr := by
      rw [delivered_append]
      exact List.append_nil _
    have ha : accepted (tr ++ [.received i numBytes]) = accepted tr := by
      rw [accepted_append]
      exact List.append_nil _
    refine h.serverStep rfl (fun _ _ => rfl) (fun _ => by rw [hpc]; trivial)
      (fun _ => hopen (by rw [hpc]; simp) (by rw [hpc]; simp)) (fun he => by cases he) (fun _ _ hb => absurd trivial hb)
      (fun _ => ?_) (fun hno => absurd (h.bound i (by rw [hpc]; trivial)) hno) ?_ (fun n hn => by cases hn)
      (fun e he n hn => ?_)
    · rw [hsv, hd, hcount, received_append, List.length_append]
      exact ⟨hstarted, rfl⟩
    · obtain ⟨rest, hb⟩ := h.books
      exact ⟨rest, by rw [ha, hd]; exact hb.log, hb.room, hb.queue, by rw [ha]; exact hb.whole⟩
    · obtain rfl := List.mem_singleton.1 he
      exact hn.symm.trans hbytes
  | sendto | ended =>
    rw [hpc] at hs
    cases hs

theorem client_step (h : Inv capacity files tr s) {garbage : Vector Byte 108}
    (hs : client capacity garbage j s.sh (s.loc (.client j)) = some (x, pc, es)) :
    Inv capacity files (tr ++ es) (s.move (.client j) x pc) := by
  have hnone : ∀ e ∈ ([] : List (Event σ ι)), ∀ n, e.IsLine n → n = msg.length := fun e he => by cases he
  have hfailed : ∀ err, Inv capacity files (tr ++ [.failed (.client j) err]) (s.move (.client j) s.sh .ended) := by
    refine fun err => h.clientStep (silent_failed _ _) (fun n hn => by cases hn) fun e he n hn => ?_
    obtain rfl := List.mem_singleton.1 he
    exact hn.elim
  cases hpc : s.loc (.client j) with
  | socket =>
    rw [hpc] at hs
    cases hs
    exact h.clientStep silent_nil (fun n hn => by cases hn) hnone
  | sendto =>
    rw [hpc] at hs
    simp only [client, cstring_sunPath] at hs
    split at hs
    · cases hs
      exact hfailed _
    · cases hs
      exact hfailed _
    · rename_i i hi
      split at hs
      · cases hs
        exact hfailed _
      · rename_i q hq
        split_ifs at hs with hroom
        cases hs
        exact h.send hi hq hroom
  | report numBytes =>
    have hbytes := h.reports _ _ hpc
    rw [hpc] at hs
    cases hs
    refine h.clientStep ⟨rfl, rfl, rfl, rfl⟩ (fun n hn => by cases hn) fun e he n hn => ?_
    obtain rfl := List.mem_singleton.1 he
    exact hn.symm.trans hbytes
  | remove | bind | serve | recvfrom | ended =>
    rw [hpc] at hs
    cases hs

theorem inv_step (h : Inv capacity files tr s) {garbage : Proc σ ι → Vector Byte 108} {p : Proc σ ι} {c : Choice}
    (hs : prog capacity garbage p c s.sh (s.loc p) = some (x, pc, es)) :
    Inv capacity files (tr ++ es) (s.move p x pc) := by
  cases c with
  | go =>
    cases p with
    | server i => exact server_step h hs
    | client j => exact client_step h hs
  | kill =>
    simp only [prog, kill] at hs
    split at hs
    · cases hs
    · cases p with
      | server i =>
        cases hs
        exact h.endServer silent_nil fun e he => by cases he
      | client j =>
        cases hs
        exact h.clientStep silent_nil (fun n hn => by cases hn) fun e he => by cases he

theorem run_inv {garbage : Proc σ ι → Vector Byte 108} {as : List (Proc σ ι × Choice)}
    (h : Run (prog capacity garbage) (start files) as tr s) : Inv capacity files tr s :=
  h.inv_trace (inv_start capacity files) fun _ _ _ _ _ _ _ hi hs => inv_step hi hs

/-! ## Results -/

/-- when the server that has bound the socket has ended, no step makes another one serve, and none sends a message -/
theorem gone_step (h : Inv capacity files tr s) (hi : s.sh.fs address = some (.socket i))
    (hended : s.loc (.server i) = .ended) {garbage : Proc σ ι → Vector Byte 108} {p : Proc σ ι} {c : Choice}
    (hs : prog capacity garbage p c s.sh (s.loc p) = some (x, pc, es)) :
    (servings es = [] ∧ accepted es = [] ∧ delivered es = []) ∧ x.fs address = some (.socket i) ∧
      (s.move p x pc).loc (.server i) = .ended := by
  have hother : ∀ k, Bound (s.loc (.server k)) → False := by
    intro k hk
    obtain rfl : i = k := File.socket.inj (Option.some.inj (hi.symm.trans (h.bound k hk)))
    rw [hended] at hk
    exact hk
  have hstay : pc = .ended ∨ p ≠ .server i → (s.move p x pc).loc (.server i) = .ended := by
    intro hp
    rw [St.move_loc]
    by_cases hpi : p = .server i
    · subst hpi
      rw [Function.update_self]
      exact hp.resolve_right fun hne => hne rfl
    · rw [Function.update_of_ne (Ne.symm hpi)]
      exact hended
  have hclosed := h.closed i hended
  have hkeep : Function.update s.sh.fs sockpath none address = s.sh.fs address :=
    Function.update_of_ne sockpath_ne.symm _ _
  cases c with
  | kill =>
    simp only [prog, kill] at hs
    split at hs
    · cases hs
    · cases p with
      | server k =>
        cases hs
        exact ⟨⟨rfl, rfl, rfl⟩, hi, hstay (.inl rfl)⟩
      | client j =>
        cases hs
        exact ⟨⟨rfl, rfl, rfl⟩, hi, hstay (.inl rfl)⟩
  | go =>
    cases p with
    | server k =>
      cases hpc : s.loc (.server k) with
      | ended | sendto =>
        rw [hpc] at hs
        cases hs
      | serve | recvfrom | report =>
        have hk := hother k
        rw [hpc] at hk
        exact (hk trivial).elim
      | socket =>
        have hki : Proc.server k ≠ (.server i : Proc σ ι) := by
          rintro he
          rw [he, hended] at hpc
          cases hpc
        rw [hpc] at hs
        cases hs
        exact ⟨⟨rfl, rfl, rfl⟩, hi, hstay (.inr hki)⟩
      | remove =>
        have hki : Proc.server k ≠ (.server i : Proc σ ι) := by
          rintro he
          rw [he, hended] at hpc
          cases hpc
        rw [hpc] at hs
        simp only [prog, server] at hs
        split at hs
        · cases hs
          exact ⟨⟨rfl, rfl, rfl⟩, hi, hstay (.inr hki)⟩
        · cases hs
          exact ⟨⟨rfl, rfl, rfl⟩, hi, hstay (.inr hki)⟩
        · cases hs
          exact ⟨⟨rfl, rfl, rfl⟩, hkeep.trans hi, hstay (.inr hki)⟩
      | bind =>
        rw [hpc] at hs
        simp only [prog, server, cstring_sunPath, hi] at hs
        cases hs
        exact ⟨⟨rfl, rfl, rfl⟩, hi, hstay (.inl rfl)⟩
    | client j =>
      have hji : Proc.client j ≠ (.server i : Proc σ ι) := by simp
      cases hpc : s.loc (.client j) with
      | sendto =>
        rw [hpc] at hs
        simp only [prog, client, cstring_sunPath, hi, hclosed] at hs
        cases hs
        exact ⟨⟨rfl, rfl, rfl⟩, hi, hstay (.inl rfl)⟩
      | remove | bind | serve | recvfrom | ended =>
        rw [hpc] at hs
        cases hs
      | _ =>
        rw [hpc] at hs
        cases hs
        exact ⟨⟨rfl, rfl, rfl⟩, hi, hstay (.inr hji)⟩

omit [DecidableEq σ] [DecidableEq ι] in
/-- who has begun to serve has bound the socket -/
theorem Inv.servings_eq (h : Inv capacity files tr s) :
    servings tr = [] ∨ ∃ i, s.sh.fs address = some (.socket i) ∧ servings tr = [i] := by
  by_cases hno : ∀ i, s.sh.fs address ≠ some (.socket i)
  · exact .inl (h.unbound hno).1
  · push Not at hno
    obtain ⟨i, hi⟩ := hno
    have hat := h.owner i hi
    cases hpc : s.loc (.server i) with
    | serve =>
      rw [hpc] at hat
      exact .inl hat.1
    | recvfrom | report =>
      rw [hpc] at hat
      exact .inr ⟨i, hi, hat.1⟩
    | ended =>
      rw [hpc] at hat
      exact hat.1.imp_right fun hone => ⟨i, hi, hone⟩
    | socket | remove | bind | sendto =>
      rw [hpc] at hat
      exact hat.elim

/-- **One server.** In every run, whatever files there are at first and whoever is killed: at most one server ever
serves, none does where the address is taken at first, and after the one that served has ended no other server serves
and no message is sent or received any more. -/
theorem one_server {garbage : Proc σ ι → Vector Byte 108} {as : List (Proc σ ι × Choice)}
    (h : Run (prog capacity garbage) (start files) as tr s) :
    (servings tr).length ≤ 1 ∧ ((files address).isSome → servings tr = []) ∧
      ∀ i ∈ servings tr, s.loc (.server i) = .ended → ∀ bs tr' s', Run (prog capacity garbage) s bs tr' s' →
        servings tr' = [] ∧ accepted tr' = [] ∧ delivered tr' = [] := by
  have hi := run_inv h
  refine ⟨?_, ?_, ?_⟩
  · rcases hi.servings_eq with hnone | ⟨i, -, hone⟩
    · rw [hnone]
      exact Nat.zero_le _
    · rw [hone, List.length_singleton]
  · intro htaken
    obtain ⟨b, hb⟩ := Option.isSome_iff_exists.1 htaken
    rcases hi.servings_eq with hnone | ⟨i, hsock, -⟩
    · exact hnone
    · rw [hi.kept b hb] at hsock
      cases hsock
  · intro i hserved hended bs tr' s' h'
    have hsock : s.sh.fs address = some (.socket i) := by
      rcases hi.servings_eq with hnone | ⟨k, hk, hone⟩
      · rw [hnone] at hserved
        cases hserved
      · rw [hone] at hserved
        rw [List.mem_singleton.1 hserved]
        exact hk
    have hgone : (servings tr' = [] ∧ accepted tr' = [] ∧ delivered tr' = []) ∧
        s'.sh.fs address = some (.socket i) ∧ s'.loc (.server i) = .ended := by
      induction h' with
      | nil => exact ⟨⟨rfl, rfl, rfl⟩, hsock, hended⟩
      | snoc h' hs ih =>
        obtain ⟨⟨hsv, ha, hd⟩, hk, he⟩ := ih
        obtain ⟨⟨hsv', ha', hd'⟩, hk', he'⟩ := gone_step (run_inv (h.append h')) hk he hs
        refine ⟨?_, hk', he'⟩
        rw [servings_append, accepted_append, delivered_append, hsv, ha, hd, hsv', ha', hd']
        exact ⟨rfl, rfl, rfl⟩
    exact hgone.1

/-- what the structures hold in the runs below -/
def filled (_ : Proc (Fin 2) (Fin 2)) : Vector Byte 108 := .replicate 108 255

def go (k : ℕ) (p : Proc (Fin 2) (Fin 2)) : List (Proc (Fin 2) (Fin 2) × Choice) := List.replicate k (p, .go)

/-- the server is killed and started again -/
theorem one_server_two :
    ∃ as tr s, Run (prog 1 filled) (start fun _ => none) as tr s ∧
      tr = [.serving 0, .failed (.server 1) .EADDRINUSE, .failed (.client 0) .ECONNREFUSED] ∧
      (servings tr).length ≤ 1 ∧ ∀ bs tr' s', Run (prog 1 filled) s bs tr' s' → accepted tr' = [] := by
  obtain ⟨s, tr, h, htr, hended⟩ := exec_any_run (prog 1 filled) (start fun _ => none)
    (go 4 (.server 0) ++ [(.server 0, .kill)] ++ go 3 (.server 1) ++ go 2 (.client 0))
    (fun s tr => tr = [.serving 0, .failed (.server 1) .EADDRINUSE, .failed (.client 0) .ECONNREFUSED] ∧
      s.loc (.server 0) = .ended) (by decide +kernel)
  obtain ⟨hone, -, hgone⟩ := one_server h
  refine ⟨_, tr, s, h, htr, hone, fun bs tr' s' h' => (hgone 0 ?_ hended bs tr' s' h').2.1⟩
  rw [htr]
  decide

/-- **Messages.** In every run: what has been received is what has been sent, in that order and without the last
messages, of which there are never more than the queue holds; every message is whole, and every line of a client or
server gives its full length. The server has printed a line for each message that it has received, but for the last one.
A client that waits in `sendto` waits for a server that has not ended and has a full queue, and which can go on if a
queue has room for a message at all. -/
theorem messages_in_order {garbage : Proc σ ι → Vector Byte 108} {as : List (Proc σ ι × Choice)}
    (h : Run (prog capacity garbage) (start files) as tr s) :
    (delivered tr <+: accepted tr ∧ (accepted tr).length ≤ (delivered tr).length + capacity) ∧
      (∀ m ∈ accepted tr, m.2 = msg) ∧ (∀ e ∈ tr, ∀ n, e.IsLine n → n = msg.length) ∧
      ((received tr).length ≤ (delivered tr).length ∧ (delivered tr).length ≤ (received tr).length + 1) ∧
      ∀ j, s.loc (.client j) = .sendto → prog capacity garbage (.client j) .go s.sh (s.loc (.client j)) = none →
        ∃ i, s.loc (.server i) ≠ .ended ∧ (s.sh.sock i).map List.length = some capacity ∧
          (0 < capacity → (prog capacity garbage (.server i) .go s.sh (s.loc (.server i))).isSome) := by
  have hi := run_inv h
  obtain ⟨rest, hb⟩ := hi.books
  refine ⟨⟨⟨rest, hb.log.symm⟩, ?_⟩, hb.whole, hi.lines, ?_, ?_⟩
  · rw [hb.log, List.length_append]
    exact Nat.add_le_add_left hb.room _
  · by_cases hno : ∀ i, s.sh.fs address ≠ some (.socket i)
    · obtain ⟨-, ha, hr⟩ := hi.unbound hno
      have hlog := hb.log
      rw [ha] at hlog
      rw [hr, (List.append_eq_nil_iff.1 hlog.symm).1]
      exact ⟨le_rfl, Nat.zero_le _⟩
    · push Not at hno
      obtain ⟨i, hsock⟩ := hno
      exact (hi.owner i hsock).ended.2
  · intro j hj hwait
    rw [hj] at hwait
    simp only [prog, client, cstring_sunPath] at hwait
    split at hwait
    · cases hwait
    · cases hwait
    · rename_i i hsock
      split at hwait
      · cases hwait
      · rename_i q hq
        split_ifs at hwait with hroom
        obtain rfl : q = rest := hb.queue i q hsock hq
        have hfull : q.length = capacity := Nat.le_antisymm hb.room (not_lt.1 hroom)
        have hne : s.loc (.server i) ≠ .ended := fun he => by
          rw [hi.closed i he] at hq
          cases hq
        refine ⟨i, hne, by rw [hq, Option.map_some, hfull], fun hpos => ?_⟩
        have hat := hi.owner i hsock
        cases hpc : s.loc (.server i) with
        | ended => exact absurd hpc hne
        | serve | report => rfl
        | recvfrom =>
          rw [← hfull] at hpos
          obtain ⟨m, q', rfl⟩ := List.exists_cons_of_length_pos hpos
          simp [prog, server, hq]
        | socket | remove | bind | sendto =>
          rw [hpc] at hat
          exact hat.elim

/-- two clients and a queue of one message: the second one waits -/
theorem messages_in_order_two :
    ∃ as tr s, Run (prog 1 filled) (start fun _ => none) as tr s ∧
      tr = [.serving 0, .accepted (0, msg), .sent 0 37, .delivered (0, msg), .accepted (1, msg)] ∧
      delivered tr <+: accepted tr ∧
      ∃ i, s.loc (.server i) ≠ .ended ∧ (prog 1 filled (.server i) .go s.sh (s.loc (.server i))).isSome := by
  obtain ⟨s, tr, h, htr, hwait, hfull⟩ := exec_any_run (prog 1 filled) (start fun _ => none)
    (go 4 (.server 0) ++ go 3 (.client 0) ++ go 1 (.server 0) ++ go 2 (.client 1))
    (fun s tr => tr = [.serving 0, .accepted (0, msg), .sent 0 37, .delivered (0, msg), .accepted (1, msg)] ∧
      s.loc (.client 0) = .sendto ∧ prog 1 filled (.client 0) .go s.sh (s.loc (.client 0)) = none)
    (by decide +kernel)
  obtain ⟨⟨hpre, -⟩, -, -, -, hsend⟩ := messages_in_order h
  obtain ⟨i, hne, -, hstep⟩ := hsend 0 hwait hfull
  exact ⟨_, tr, s, h, htr, hpre, i, hne, hstep Nat.one_pos⟩

end OsPractice.SlowReader
