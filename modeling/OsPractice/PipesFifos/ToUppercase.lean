/-
The upper-casing pipeline (`pipesFIFOs/to_uppercase.c`). The parent reads a chunk of its standard input, sends it to
its child through one pipe, and reads the answer from another; the child puts the chunk into upper case. Nothing in the
pipes marks where a chunk ends.

Each system call is one step, and so are `upper` and the output of a result. A read of standard input returns as many
bytes as the environment chooses, up to 1024 and to what is left, and none at its end. `printf` is the event of its
text. Errors of the calls are not modelled, except that a write to a pipe without a reader ends the process. What
follows the parent's loop is not reached and has no points here.

Results:
- `joint_step`: where the two processes can be relative to each other, and what the pipes hold there (`Joint`);
- `lockstep`: at the head of the parent's loop each chunk has been answered by its own result and the pipes are empty;
- `deadlock_reachable`: every run can be continued to a state in which the two processes wait for each other.
-/
import OsPractice.Core.Interleave
import OsPractice.Core.Bytes
import OsPractice.Core.ByteStream

namespace OsPractice.ToUppercase

open Interleave Bytes ByteStream

/-! ## The program -/

/-- what the loop body does to one `char` -/
def upperChar (c : Byte) : Byte := if 97 ≤ c.toInt ∧ c.toInt ≤ 122 then c - 32 else c

/-- `upper(buf, siz)` -/
def upper (buf : List Byte) (siz : ℕ) : List Byte := (List.range siz).foldl (fun buf i => buf.modify i upperChar) buf

inductive Proc where
  | parent
  | child
  deriving DecidableEq, Repr

abbrev Pipe := Channel Proc Byte

structure Shared where
  /-- what is left of the standard input -/
  stdin : List Byte
  sendPipe : Pipe
  recievePipe : Pipe
  deriving DecidableEq, Repr

/-- points of both processes after `fork`; the numbers are `nread` and `responseLen` -/
inductive Pc where
  -- the parent
  | closeSend0
  | closeRecieve1
  | readStdin
  | writeSend (nread : ℕ)
  | readRecieve
  | printResult (responseLen : ℕ)
  -- the child
  | childCloseSend1
  | childCloseRecieve0
  | childRead
  | childUpper (nread : ℕ)
  | childWrite (nread : ℕ)
  | childCloseSend0
  | childCloseRecieve1
  | childExit
  -- ended by SIGPIPE, or by `_exit`
  | ended
  deriving DecidableEq, Repr

structure Local where
  pc : Pc
  buf : List Byte
  deriving DecidableEq, Repr

inductive Event where
  /-- the parent has read these bytes of its standard input -/
  | consumed (chunk : List Byte)
  /-- the parent has printed a result with this text -/
  | result (text : List Byte)
  deriving DecidableEq, Repr

/-- how many bytes a pipe holds at most -/
def PIPE_SIZE : ℕ := 65536

/-- the kernel closes what an ended process has open -/
def exitProc (p : Proc) (sh : Shared) : Shared where
  stdin := sh.stdin
  sendPipe := closeRead p (closeWrite p sh.sendPipe)
  recievePipe := closeRead p (closeWrite p sh.recievePipe)

def prog : Prog Proc ℕ Shared Local Event := fun p k sh l =>
  match l.pc with
  | .closeSend0 => some ({ sh with sendPipe := closeRead p sh.sendPipe }, { l with pc := .closeRecieve1 }, [])
  | .closeRecieve1 => some ({ sh with recievePipe := closeWrite p sh.recievePipe }, { l with pc := .readStdin }, [])
  | .readStdin =>
    -- `k` bytes are there, none only at the end
    if k ≤ 1024 ∧ k ≤ sh.stdin.length ∧ (k = 0 → sh.stdin = []) then
      some ({ sh with stdin := sh.stdin.drop k }, ⟨.writeSend k, fill l.buf (sh.stdin.take k)⟩,
        [.consumed (sh.stdin.take k)])
    else none
  | .writeSend nread =>
    match write PIPE_SIZE (l.buf.take nread) sh.sendPipe with
    | .blocked => none
    | .broken => some (exitProc p sh, { l with pc := .ended }, [])
    | .done pipe => some ({ sh with sendPipe := pipe }, { l with pc := .readRecieve }, [])
  | .readRecieve => (read 1024 sh.recievePipe).map fun r =>
      ({ sh with recievePipe := r.1 }, ⟨.printResult r.2.length, fill l.buf r.2⟩, [])
  | .printResult responseLen =>
    let buf := l.buf.set responseLen 0
    some (sh, ⟨.readStdin, buf⟩, [.result (cstring buf)])
  | .childCloseSend1 =>
    some ({ sh with sendPipe := closeWrite p sh.sendPipe }, { l with pc := .childCloseRecieve0 }, [])
  | .childCloseRecieve0 =>
    some ({ sh with recievePipe := closeRead p sh.recievePipe }, { l with pc := .childRead }, [])
  | .childRead => (read 1024 sh.sendPipe).map fun r =>
      ({ sh with sendPipe := r.1 },
        ⟨if r.2.length = 0 then .childCloseSend0 else .childUpper r.2.length, fill l.buf r.2⟩, [])
  | .childUpper nread => some (sh, ⟨.childWrite nread, upper l.buf nread⟩, [])
  | .childWrite nread =>
    match write PIPE_SIZE (l.buf.take nread) sh.recievePipe with
    | .blocked => none
    | .broken => some (exitProc p sh, { l with pc := .ended }, [])
    | .done pipe => some ({ sh with recievePipe := pipe }, { l with pc := .childRead }, [])
  | .childCloseSend0 => some ({ sh with sendPipe := closeRead p sh.sendPipe }, { l with pc := .childCloseRecieve1 }, [])
  | .childCloseRecieve1 =>
    some ({ sh with recievePipe := closeWrite p sh.recievePipe }, { l with pc := .childExit }, [])
  | .childExit => some (exitProc p sh, { l with pc := .ended }, [])
  | .ended => none

abbrev Global := St Proc Shared Local

/-- after `fork`: both processes have both pipes open, and a copy of the uninitialised `buf` -/
def start (input : List Byte) (buf : Vector Byte 1025) : Global where
  sh := ⟨input, ⟨[.parent, .child], [.parent, .child], []⟩, ⟨[.parent, .child], [.parent, .child], []⟩⟩
  loc
    | .parent => ⟨.closeSend0, buf.toList⟩
    | .child => ⟨.childCloseSend1, buf.toList⟩

/-! ## Upper case -/

theorem upper_succ (buf : List Byte) (n : ℕ) : upper buf (n + 1) = (upper buf n).modify n upperChar := by
  simp [upper, List.range_succ]

theorem upper_getElem? (buf : List Byte) (n i : ℕ) :
    (upper buf n)[i]? = if i < n then buf[i]?.map upperChar else buf[i]? := by
  induction n with
  | zero => simp [upper]
  | succ n ih =>
    rw [upper_succ, List.getElem?_modify, ih]
    rcases Nat.lt_trichotomy i n with h | h | h
    · simp [h, h.ne', Nat.lt_succ_of_lt h]
    · subst h
      simp
    · simp [h.ne, Nat.lt_asymm h, Nat.not_lt.2 h]

theorem upper_take (buf : List Byte) (n : ℕ) : (upper buf n).take n = (buf.take n).map upperChar := by
  refine List.ext_getElem? fun i => ?_
  rw [List.getElem?_take, List.getElem?_map, List.getElem?_take, upper_getElem?]
  split_ifs <;> rfl

/-- `a` to `z` become `A` to `Z`, and nothing else changes -/
def capital (c : Byte) : Byte := BitVec.ofNat 8 (Char.ofNat c.toNat).toUpper.toNat

theorem upperChar_eq (c : Byte) : upperChar c = capital c := by
  decide +revert +kernel

theorem upperChar_ne_zero {c : Byte} (h : c ≠ 0) : upperChar c ≠ 0 := by
  decide +revert +kernel

theorem zero_notMem_map {bs : List Byte} (h : 0 ∉ bs) : 0 ∉ bs.map upperChar := by
  intro h0
  obtain ⟨c, hc, he⟩ := List.mem_map.1 h0
  exact upperChar_ne_zero (ne_of_mem_of_not_mem hc h) he

/-! ## Where the two processes can be -/

/-- the parent is before the loop or at its head -/
def ParentIdle : Pc → Prop
  | .closeSend0 | .closeRecieve1 | .readStdin => True
  | _ => False

/-- the child is before the loop or at its head -/
def ChildIdle : Pc → Prop
  | .childCloseSend1 | .childCloseRecieve0 | .childRead => True
  | _ => False

/-- the two processes with the chunk that the parent has read and not printed the result of -/
inductive Joint (sh : Shared) (par ch : Local) : Option (List Byte) → Prop where
  | head (hp : ParentIdle par.pc) (hc : ChildIdle ch.pc) (hs : sh.sendPipe.data = []) (hr : sh.recievePipe.data = []) :
    Joint sh par ch none
  | sending {chunk : List Byte} (hp : par.pc = .writeSend chunk.length) (hb : par.buf.take chunk.length = chunk)
      (hc : ChildIdle ch.pc) (hs : sh.sendPipe.data = []) (hr : sh.recievePipe.data = []) :
    Joint sh par ch (some chunk)
  | sent {chunk : List Byte} (hp : par.pc = .readRecieve) (hc : ChildIdle ch.pc) (hs : sh.sendPipe.data = chunk)
      (hr : sh.recievePipe.data = []) : Joint sh par ch (some chunk)
  | taken {chunk : List Byte} (hne : chunk ≠ []) (hp : par.pc = .readRecieve) (hc : ch.pc = .childUpper chunk.length)
      (hb : ch.buf.take chunk.length = chunk) (hs : sh.sendPipe.data = []) (hr : sh.recievePipe.data = []) :
    Joint sh par ch (some chunk)
  | raised {chunk : List Byte} (hne : chunk ≠ []) (hp : par.pc = .readRecieve) (hc : ch.pc = .childWrite chunk.length)
      (hb : ch.buf.take chunk.length = chunk.map upperChar) (hs : sh.sendPipe.data = [])
      (hr : sh.recievePipe.data = []) : Joint sh par ch (some chunk)
  | answered {chunk : List Byte} (hne : chunk ≠ []) (hp : par.pc = .readRecieve) (hc : ch.pc = .childRead)
      (hs : sh.sendPipe.data = []) (hr : sh.recievePipe.data = chunk.map upperChar) : Joint sh par ch (some chunk)
  | printing {chunk : List Byte} (hne : chunk ≠ []) (hp : par.pc = .printResult chunk.length)
      (hb : par.buf.take chunk.length = chunk.map upperChar) (hc : ch.pc = .childRead) (hs : sh.sendPipe.data = [])
      (hr : sh.recievePipe.data = []) : Joint sh par ch (some chunk)

/-- the ends that the processes use stay open -/
structure Ends (sh : Shared) : Prop where
  sendWriter : .parent ∈ sh.sendPipe.writers
  sendReader : .child ∈ sh.sendPipe.readers
  recieveWriter : .child ∈ sh.recievePipe.writers
  recieveReader : .parent ∈ sh.recievePipe.readers

/-- what a step does to the chunk in progress and the standard input -/
inductive Effect : Option (List Byte) → List Byte → List Event → Option (List Byte) → List Byte → Prop where
  | silent (pend : Option (List Byte)) (stdin : List Byte) : Effect pend stdin [] pend stdin
  | request {chunk stdin : List Byte} (h : chunk.length ≤ 1024) :
    Effect none (chunk ++ stdin) [.consumed chunk] (some chunk) stdin
  | reply {chunk text stdin : List Byte} (h : 0 ∉ chunk → text = chunk.map upperChar) :
    Effect (some chunk) stdin [.result text] none stdin

/-- the state of the two processes between steps -/
structure Pair (sh : Shared) (par ch : Local) (pend : Option (List Byte)) : Prop where
  joint : Joint sh par ch pend
  ends : Ends sh
  length : par.buf.length = 1025
  size : ∀ chunk, pend = some chunk → chunk.length ≤ 1024

theorem read_blocked {limit : ℕ} {p : Proc} {pipe : Pipe} (hd : pipe.data = []) (hw : p ∈ pipe.writers) :
    read limit pipe = none :=
  read_eq_none.2 ⟨hd, List.ne_nil_of_mem hw⟩

/-- a chunk fits into an empty pipe -/
theorem write_chunk {chunk : List Byte} {p : Proc} {pipe : Pipe} (hl : chunk.length ≤ 1024) (hr : p ∈ pipe.readers)
    (hd : pipe.data = []) : write PIPE_SIZE chunk pipe = .done { pipe with data := chunk } := by
  have hcap : pipe.data.length + chunk.length ≤ PIPE_SIZE := by
    rw [hd]
    exact (Nat.zero_add _).le.trans (hl.trans (by decide))
  rw [write_all (List.ne_nil_of_mem hr) hcap, hd, List.nil_append]

theorem parent_send {k : ℕ} {sh : Shared} {chunk buf : List Byte} (hends : Ends sh) (hl : chunk.length ≤ 1024)
    (hb : buf.take chunk.length = chunk) (hd : sh.sendPipe.data = []) :
    prog .parent k sh ⟨.writeSend chunk.length, buf⟩ =
      some ({ sh with sendPipe := { sh.sendPipe with data := chunk } }, ⟨.readRecieve, buf⟩, []) := by
  simp only [prog, hb, write_chunk hl hends.sendReader hd]

theorem child_take {k : ℕ} {sh : Shared} {buf : List Byte} (hl : sh.sendPipe.data.length ≤ 1024)
    (hd : sh.sendPipe.data ≠ []) :
    prog .child k sh ⟨.childRead, buf⟩ = some ({ sh with sendPipe := { sh.sendPipe with data := [] } },
      ⟨.childUpper sh.sendPipe.data.length, fill buf sh.sendPipe.data⟩, []) := by
  have hlen : sh.sendPipe.data.length ≠ 0 := fun h0 => hd (List.eq_nil_of_length_eq_zero h0)
  simp only [prog, read_all hd hl, Option.map_some, if_neg hlen]

theorem child_answer {k : ℕ} {sh : Shared} {chunk buf : List Byte} (hends : Ends sh) (hl : chunk.length ≤ 1024)
    (hb : buf.take chunk.length = chunk.map upperChar) (hr : sh.recievePipe.data = []) :
    prog .child k sh ⟨.childWrite chunk.length, buf⟩ =
      some ({ sh with recievePipe := { sh.recievePipe with data := chunk.map upperChar } }, ⟨.childRead, buf⟩, []) := by
  have hl' : (chunk.map upperChar).length ≤ 1024 := by rwa [List.length_map]
  simp only [prog, hb, write_chunk hl' hends.recieveReader hr]

theorem parent_take {k : ℕ} {sh : Shared} {chunk buf : List Byte} (hl : chunk.length ≤ 1024) (hne : chunk ≠ [])
    (hr : sh.recievePipe.data = chunk.map upperChar) :
    prog .parent k sh ⟨.readRecieve, buf⟩ = some ({ sh with recievePipe := { sh.recievePipe with data := [] } },
      ⟨.printResult chunk.length, fill buf (chunk.map upperChar)⟩, []) := by
  have hread : read 1024 sh.recievePipe = some ({ sh.recievePipe with data := [] }, sh.recievePipe.data) :=
    read_all (by rw [hr]; simpa using hne) (by rw [hr, List.length_map]; exact hl)
  simp only [prog, hread, hr, Option.map_some, List.length_map]

theorem parent_step {k : ℕ} {sh sh' : Shared} {par par' ch : Local} {es : List Event} {pend : Option (List Byte)}
    (h : Pair sh par ch pend) (hs : prog .parent k sh par = some (sh', par', es)) :
    ∃ pend', Pair sh' par' ch pend' ∧ Effect pend sh.stdin es pend' sh'.stdin := by
  obtain ⟨hj, hends, hlen, hsize⟩ := h
  obtain ⟨pc, buf⟩ := par
  cases hj with
  | head hp hc hd hr =>
    cases pc with
    | closeSend0 =>
      cases hs
      refine ⟨none, ⟨.head trivial hc hd hr, ⟨hends.sendWriter, ?_, hends.recieveWriter, hends.recieveReader⟩, hlen,
        hsize⟩, .silent _ _⟩
      exact mem_closeRead hends.sendReader (by decide)
    | closeRecieve1 =>
      cases hs
      refine ⟨none, ⟨.head trivial hc hd hr, ⟨hends.sendWriter, hends.sendReader, ?_, hends.recieveReader⟩, hlen,
        hsize⟩, .silent _ _⟩
      exact mem_closeWrite hends.recieveWriter (by decide)
    | readStdin =>
      simp only [prog] at hs
      split_ifs at hs with hk
      cases hs
      have hchunk : (sh.stdin.take k).length = k := by
        rw [List.length_take]
        omega
      have hbuf : (sh.stdin.take k).length ≤ buf.length := by
        rw [hchunk]
        simp only at hlen
        omega
      refine ⟨some (sh.stdin.take k), ⟨.sending ?_ (fill_take _ _) hc hd hr,
        ⟨hends.sendWriter, hends.sendReader, hends.recieveWriter, hends.recieveReader⟩, ?_, ?_⟩, ?_⟩
      · rw [hchunk]
      · exact (fill_length hbuf).trans hlen
      · intro chunk he
        cases he
        omega
      · have hreq : Effect none (sh.stdin.take k ++ sh.stdin.drop k) [.consumed (sh.stdin.take k)]
            (some (sh.stdin.take k)) (sh.stdin.drop k) := .request (by omega)
        rwa [List.take_append_drop] at hreq
    | _ => exact hp.elim
  | @sending chunk hp hb hc hd hr =>
    simp only at hp hb hlen
    subst hp
    rw [parent_send hends (hsize chunk rfl) hb hd] at hs
    cases hs
    exact ⟨some chunk, ⟨.sent rfl hc rfl hr, ⟨hends.sendWriter, hends.sendReader, hends.recieveWriter,
      hends.recieveReader⟩, hlen, hsize⟩, .silent _ _⟩
  | @answered chunk hne hp hc hd hr =>
    simp only at hp hlen
    subst hp
    have hle := hsize chunk rfl
    rw [parent_take hle hne hr] at hs
    cases hs
    refine ⟨some chunk, ⟨.printing hne rfl ?_ hc hd rfl, ⟨hends.sendWriter, hends.sendReader, hends.recieveWriter,
      hends.recieveReader⟩, ?_, hsize⟩, .silent _ _⟩
    · have := fill_take buf (chunk.map upperChar)
      rwa [List.length_map] at this
    · exact (fill_length (by rw [List.length_map]; omega)).trans hlen
  | @printing chunk hne hp hb hc hd hr =>
    simp only at hp hb hlen
    subst hp
    cases hs
    refine ⟨none, ⟨.head trivial (by rw [hc]; trivial) hd hr, hends, by simpa using hlen, by simp⟩, .reply ?_⟩
    intro h0
    have hn : chunk.length < buf.length := by
      have := hsize chunk rfl
      omega
    exact (cstring_set hn (by rw [hb]; exact zero_notMem_map h0)).trans hb
  | sent hp hc hd hr | taken hne hp hc hb hd hr | raised hne hp hc hb hd hr =>
    -- the answer is not there yet
    simp only at hp
    subst hp
    simp only [prog, read_blocked hr hends.recieveWriter, Option.map_none] at hs
    cases hs

/-- a child that is ready for a request: it goes on to its loop, or takes the request -/
theorem childIdle_step {k : ℕ} {sh sh' : Shared} {ch ch' : Local} {es : List Event} (hends : Ends sh)
    (hsize : sh.sendPipe.data.length ≤ 1024) (hc : ChildIdle ch.pc) (hs : prog .child k sh ch = some (sh', ch', es)) :
    es = [] ∧ sh'.stdin = sh.stdin ∧ sh'.recievePipe.data = sh.recievePipe.data ∧ Ends sh' ∧
      (ChildIdle ch'.pc ∧ sh'.sendPipe.data = sh.sendPipe.data ∨
        sh.sendPipe.data ≠ [] ∧ sh'.sendPipe.data = [] ∧ ch'.pc = .childUpper sh.sendPipe.data.length ∧
          ch'.buf.take sh.sendPipe.data.length = sh.sendPipe.data) := by
  obtain ⟨pc, buf⟩ := ch
  cases pc with
  | childCloseSend1 =>
    cases hs
    refine ⟨rfl, rfl, rfl, ⟨?_, hends.sendReader, hends.recieveWriter, hends.recieveReader⟩, .inl ⟨trivial, rfl⟩⟩
    exact mem_closeWrite hends.sendWriter (by decide)
  | childCloseRecieve0 =>
    cases hs
    refine ⟨rfl, rfl, rfl, ⟨hends.sendWriter, hends.sendReader, hends.recieveWriter, ?_⟩, .inl ⟨trivial, rfl⟩⟩
    exact mem_closeRead hends.recieveReader (by decide)
  | childRead =>
    by_cases hd : sh.sendPipe.data = []
    · simp only [prog, read_blocked hd hends.sendWriter, Option.map_none] at hs
      cases hs
    · rw [child_take hsize hd] at hs
      cases hs
      exact ⟨rfl, rfl, rfl, ⟨hends.sendWriter, hends.sendReader, hends.recieveWriter, hends.recieveReader⟩,
        .inr ⟨hd, rfl, rfl, fill_take _ _⟩⟩
  | _ => exact hc.elim

theorem child_step {k : ℕ} {sh sh' : Shared} {par ch ch' : Local} {es : List Event} {pend : Option (List Byte)}
    (h : Pair sh par ch pend) (hs : prog .child k sh ch = some (sh', ch', es)) :
    es = [] ∧ sh'.stdin = sh.stdin ∧ Pair sh' par ch' pend := by
  obtain ⟨hj, hends, hlen, hsize⟩ := h
  cases hj with
  | head hp hc hd hr =>
    obtain ⟨rfl, hin, hr', hends', ⟨hc', hd'⟩ | ⟨hne, -⟩⟩ := childIdle_step hends (by simp [hd]) hc hs
    · exact ⟨rfl, hin, .head hp hc' (hd'.trans hd) (hr'.trans hr), hends', hlen, hsize⟩
    · exact absurd hd hne
  | sending hp hb hc hd hr =>
    obtain ⟨rfl, hin, hr', hends', ⟨hc', hd'⟩ | ⟨hne, -⟩⟩ := childIdle_step hends (by simp [hd]) hc hs
    · exact ⟨rfl, hin, .sending hp hb hc' (hd'.trans hd) (hr'.trans hr), hends', hlen, hsize⟩
    · exact absurd hd hne
  | @sent chunk hp hc hd hr =>
    subst hd
    obtain ⟨rfl, hin, hr', hends', ⟨hc', hd'⟩ | ⟨hne, hd', hc', hb⟩⟩ := childIdle_step hends (hsize _ rfl) hc hs
    · exact ⟨rfl, hin, .sent hp hc' hd' (hr'.trans hr), hends', hlen, hsize⟩
    · exact ⟨rfl, hin, .taken hne hp hc' hb hd' (hr'.trans hr), hends', hlen, hsize⟩
  | taken hne hp hc hb hd hr =>
    obtain ⟨pc, buf⟩ := ch
    simp only at hc hb
    subst hc
    cases hs
    refine ⟨rfl, rfl, .raised hne hp rfl ?_ hd hr, hends, hlen, hsize⟩
    exact (upper_take _ _).trans (congrArg _ hb)
  | @raised chunk hne hp hc hb hd hr =>
    obtain ⟨pc, buf⟩ := ch
    simp only at hc hb
    subst hc
    rw [child_answer hends (hsize chunk rfl) hb hr] at hs
    cases hs
    exact ⟨rfl, rfl, .answered hne hp rfl hd rfl, ⟨hends.sendWriter, hends.sendReader, hends.recieveWriter,
      hends.recieveReader⟩, hlen, hsize⟩
  | answered hne hp hc hd hr | printing hne hp hb hc hd hr =>
    -- there is no request
    obtain ⟨pc, buf⟩ := ch
    simp only at hc
    subst hc
    simp only [prog, read_blocked hd hends.sendWriter, Option.map_none] at hs
    cases hs

/-! ## Runs -/

def request : Event → Option (List Byte)
  | .consumed chunk => some chunk
  | .result _ => none

def result : Event → Option (List Byte)
  | .consumed _ => none
  | .result text => some text

/-- the chunks that the parent has read -/
def requests (tr : List Event) : List (List Byte) := tr.filterMap request

/-- the results that the parent has printed -/
def results (tr : List Event) : List (List Byte) := tr.filterMap result

theorem requests_append (tr es : List Event) : requests (tr ++ es) = requests tr ++ requests es := List.filterMap_append

theorem results_append (tr es : List Event) : results (tr ++ es) = results tr ++ results es := List.filterMap_append

/-- the chunks and results so far, with the chunk in progress -/
structure Books (input : List Byte) (tr : List Event) (s : Global) (pend : Option (List Byte)) : Prop where
  pair : Pair s.sh (s.loc .parent) (s.loc .child) pend
  consumed : (requests tr).flatten ++ s.sh.stdin = input
  answered : ∃ old, requests tr = old ++ pend.toList ∧ (0 ∉ input → results tr = old.map (List.map upperChar))

theorem Books.effect {input : List Byte} {tr es : List Event} {s u : Global} {pend pend' : Option (List Byte)}
    (h : Books input tr s pend) (he : Effect pend s.sh.stdin es pend' u.sh.stdin)
    (hp : Pair u.sh (u.loc .parent) (u.loc .child) pend') : Books input (tr ++ es) u pend' := by
  have hin := h.consumed
  obtain ⟨old, hold, hres⟩ := h.answered
  generalize s.sh.stdin = i at he hin
  generalize hi : u.sh.stdin = i' at he
  cases he with
  | silent => exact ⟨hp, by rw [List.append_nil, hi]; exact hin, old, by rw [List.append_nil]; exact hold,
      by rw [List.append_nil]; exact hres⟩
  | @request chunk _ hc =>
    refine ⟨hp, ?_, old, ?_, ?_⟩
    · rw [hi, requests_append, ← hin]
      simp [requests, request]
    · rw [requests_append, hold]
      simp [requests, request]
    · intro h0
      rw [results_append, hres h0]
      simp [results, result]
  | @reply chunk text _ ht =>
    refine ⟨hp, ?_, old ++ [chunk], ?_, ?_⟩
    · rw [hi, requests_append, ← hin]
      simp [requests, request]
    · rw [requests_append, hold]
      simp [requests, request]
    · intro h0
      have hchunk : 0 ∉ chunk := by
        intro hm
        refine h0 (hin ▸ List.mem_append_left _ ?_)
        rw [hold]
        exact List.mem_flatten.2 ⟨chunk, by simp, hm⟩
      rw [results_append, hres h0, ht hchunk]
      simp [results, result]

theorem joint_step {input : List Byte} {tr es : List Event} {s : Global} {pend : Option (List Byte)} {p : Proc} {k : ℕ}
    {sh : Shared} {l : Local} (h : Books input tr s pend) (hs : prog p k s.sh (s.loc p) = some (sh, l, es)) :
    ∃ pend', Books input (tr ++ es) (s.move p sh l) pend' := by
  cases p with
  | parent =>
    obtain ⟨pend', hp, he⟩ := parent_step h.pair hs
    exact ⟨pend', h.effect (u := s.move .parent sh l) he (by simpa using hp)⟩
  | child =>
    obtain ⟨rfl, hin, hp⟩ := child_step h.pair hs
    refine ⟨pend, h.effect (u := s.move .child sh l) ?_ (by simpa using hp)⟩
    rw [St.move_sh, hin]
    exact .silent _ _

theorem run_books {input : List Byte} {buf : Vector Byte 1025} {as : List (Proc × ℕ)} {tr : List Event} {s : Global}
    (h : Run prog (start input buf) as tr s) : ∃ pend, Books input tr s pend := by
  refine h.inv_trace (I := fun tr s => ∃ pend, Books input tr s pend) ?_ ?_
  · refine ⟨none, ⟨.head trivial trivial rfl rfl, ⟨?_, ?_, ?_, ?_⟩, by simp [start], by simp⟩, rfl, [], rfl,
      fun _ => rfl⟩
    all_goals simp [start]
  · rintro tr s p k sh l es ⟨pend, hb⟩ hs
    exact joint_step hb hs

/-- the parent is at the head of its loop -/
def AtHead (s : Global) : Prop := (s.loc .parent).pc = .readStdin

/-- the results against the bytes consumed -/
structure Lockstep (input : List Byte) (tr : List Event) (s : Global) : Prop where
  /-- each result is for its own request -/
  answered : results tr = (requests tr).map (List.map capital)
  total : (results tr).flatten = (requests tr).flatten.map capital
  consumed : (requests tr).flatten ++ s.sh.stdin = input
  sendPipe : s.sh.sendPipe.data = []
  recievePipe : s.sh.recievePipe.data = []

/-- **Lock-step.** For an input without NUL, however it is read and the two processes are interleaved: at the head of
the parent's loop every chunk has been answered by its own result, in upper case, and nothing is left in the pipes. -/
theorem lockstep {input : List Byte} (h0 : 0 ∉ input) (buf : Vector Byte 1025) {as : List (Proc × ℕ)} {tr : List Event}
    {s : Global} (h : Run prog (start input buf) as tr s) (hhead : AtHead s) : Lockstep input tr s := by
  obtain ⟨pend, hbooks⟩ := run_books h
  obtain ⟨old, hold, hres⟩ := hbooks.answered
  rw [AtHead] at hhead
  have hcap : upperChar = capital := funext upperChar_eq
  have hjoint := hbooks.pair.joint
  cases hjoint with
  | head hp hc hd hr =>
    rw [Option.toList_none, List.append_nil] at hold
    have hanswered : results tr = (requests tr).map (List.map capital) := by rw [hres h0, hold, hcap]
    refine ⟨hanswered, ?_, hbooks.consumed, hd, hr⟩
    rw [hanswered, List.map_flatten]
  | sending hp | sent hp | taken _ hp | raised _ hp | answered _ hp | printing _ hp =>
    rw [hhead] at hp
    cases hp

/-- both letters of the input in one chunk -/
theorem lockstep_ab : 0 ∉ [97, (98 : Byte)] ∧ ∃ as tr s,
    Run prog (start [97, 98] (Vector.replicate 1025 0)) as tr s ∧ AtHead s ∧
      tr = [.consumed [97, 98], .result [65, 66]] ∧ Lockstep [97, 98] tr s := by
  have h0 : 0 ∉ [97, (98 : Byte)] := by decide
  obtain ⟨s, tr, h, hhead, htr⟩ := exec_any_run prog (start [97, 98] (Vector.replicate 1025 0))
    [(.parent, 0), (.parent, 0), (.parent, 2), (.parent, 0), (.child, 0), (.child, 0), (.child, 0), (.child, 0),
      (.child, 0), (.parent, 0), (.parent, 0)]
    (fun s tr => (s.loc .parent).pc = .readStdin ∧ tr = [.consumed [97, 98], .result [65, 66]]) (by decide +kernel)
  exact ⟨h0, _, tr, s, h, hhead, htr, lockstep h0 _ h hhead⟩

/-! ## The end of the input -/

/-- each process waits for the other, which has the other end of its pipe open -/
structure Deadlock (s : Global) : Prop where
  parent : (s.loc .parent).pc = .readRecieve
  child : (s.loc .child).pc = .childRead
  recieveHeld : .child ∈ s.sh.recievePipe.writers
  sendHeld : .parent ∈ s.sh.sendPipe.writers
  stuck : ∀ p, ¬ CanStep prog s p

def pcRank : Pc → ℕ
  | .closeSend0 => 4
  | .closeRecieve1 => 3
  | .readStdin => 2
  | .writeSend nread => if nread = 0 then 1 else 10
  | .printResult _ => 5
  | .childCloseSend1 => 2
  | .childCloseRecieve0 => 1
  | .childUpper _ => 8
  | .childWrite _ => 7
  | _ => 0

def pipeRank (weight : ℕ) (pipe : Pipe) : ℕ := if pipe.data = [] then 0 else weight

/-- how far the two processes are from the end of the input -/
def rank (sh : Shared) (par ch : Local) : ℕ :=
  16 * sh.stdin.length + pcRank par.pc + pcRank ch.pc + pipeRank 9 sh.sendPipe + pipeRank 6 sh.recievePipe

theorem pipeRank_nil {weight : ℕ} {pipe : Pipe} (h : pipe.data = []) : pipeRank weight pipe = 0 := if_pos h

theorem pipeRank_ne {weight : ℕ} {pipe : Pipe} (h : pipe.data ≠ []) : pipeRank weight pipe = weight := if_neg h

/-- a step to a point of lower rank, with the same bytes everywhere else -/
theorem rank_lt_of_pc {sh sh' : Shared} {par par' ch ch' : Local} (hin : sh'.stdin = sh.stdin)
    (hd : sh'.sendPipe.data = sh.sendPipe.data) (hr : sh'.recievePipe.data = sh.recievePipe.data)
    (h : pcRank par'.pc + pcRank ch'.pc < pcRank par.pc + pcRank ch.pc) : rank sh' par' ch' < rank sh par ch := by
  simp only [rank, pipeRank, hin, hd, hr]
  omega

/-- some process makes a step towards the end of the input -/
def Advances (sh : Shared) (par ch : Local) : Prop :=
  (∃ k sh' par' es, prog .parent k sh par = some (sh', par', es) ∧ rank sh' par' ch < rank sh par ch) ∨
  ∃ k sh' ch' es, prog .child k sh ch = some (sh', ch', es) ∧ rank sh' par ch' < rank sh par ch

theorem childIdle_advances {sh : Shared} (par : Local) {ch : Local} (hsize : sh.sendPipe.data.length ≤ 1024)
    (hc : ChildIdle ch.pc) : ch.pc = .childRead ∧ sh.sendPipe.data = [] ∨ Advances sh par ch := by
  obtain ⟨pc, buf⟩ := ch
  cases pc with
  | childCloseSend1 =>
    exact .inr (.inr ⟨0, _, _, _, rfl, rank_lt_of_pc rfl rfl rfl (Nat.add_lt_add_left (Nat.lt_succ_self 1) _)⟩)
  | childCloseRecieve0 =>
    exact .inr (.inr ⟨0, _, _, _, rfl, rank_lt_of_pc rfl rfl rfl (Nat.add_lt_add_left (Nat.lt_succ_self 0) _)⟩)
  | childRead =>
    by_cases hd : sh.sendPipe.data = []
    · exact .inl ⟨rfl, hd⟩
    · refine .inr (.inr ⟨0, _, _, _, child_take hsize hd, ?_⟩)
      simp only [rank, pipeRank_ne hd, pipeRank_nil]
      generalize pcRank par.pc = r
      simp only [pcRank]
      omega
  | _ => exact hc.elim

theorem pair_advances {sh : Shared} {par ch : Local} {pend : Option (List Byte)} (h : Pair sh par ch pend) :
    (par.pc = .readRecieve ∧ ch.pc = .childRead ∧ sh.sendPipe.data = [] ∧ sh.recievePipe.data = []) ∨
      Advances sh par ch := by
  obtain ⟨hj, hends, hlen, hsize⟩ := h
  cases hj with
  | head hp hc hd hr =>
    right
    left
    obtain ⟨pc, buf⟩ := par
    cases pc with
    | closeSend0 =>
      exact ⟨0, _, _, _, rfl, rank_lt_of_pc rfl rfl rfl (Nat.add_lt_add_right (Nat.lt_succ_self 3) _)⟩
    | closeRecieve1 =>
      exact ⟨0, _, _, _, rfl, rank_lt_of_pc rfl rfl rfl (Nat.add_lt_add_right (Nat.lt_succ_self 2) _)⟩
    | readStdin =>
      by_cases hin : sh.stdin = []
      · refine ⟨0, _, _, _, by simp only [prog]; rw [if_pos ⟨by decide, Nat.zero_le _, fun _ => hin⟩], ?_⟩
        refine rank_lt_of_pc ?_ rfl rfl (Nat.add_lt_add_right (Nat.lt_succ_self 1) _)
        rw [hin]
        rfl
      · have hpos : 0 < sh.stdin.length := List.length_pos_of_ne_nil hin
        refine ⟨1, _, _, _, by simp only [prog]; rw [if_pos ⟨by decide, hpos, by simp⟩], ?_⟩
        simp only [rank, List.length_drop]
        generalize pcRank ch.pc = r
        simp only [pcRank, Nat.one_ne_zero, if_false]
        omega
    | _ => exact hp.elim
  | @sending chunk hp hb hc hd hr =>
    right
    left
    obtain ⟨pc, buf⟩ := par
    simp only at hp hb
    subst hp
    refine ⟨0, _, _, _, parent_send hends (hsize chunk rfl) hb hd, ?_⟩
    by_cases hne : chunk = []
    · subst hne
      exact rank_lt_of_pc rfl hd.symm rfl (Nat.add_lt_add_right Nat.zero_lt_one _)
    · have hlen : chunk.length ≠ 0 := fun h0 => hne (List.eq_nil_of_length_eq_zero h0)
      have hsent : pipeRank 9 { sh.sendPipe with data := chunk } = 9 := pipeRank_ne hne
      simp only [rank, pipeRank_nil hd, hsent]
      generalize pcRank ch.pc = r
      simp only [pcRank, if_neg hlen]
      omega
  | sent hp hc hd hr =>
    rcases childIdle_advances par (by rw [hd]; exact hsize _ rfl) hc with ⟨hread, hnil⟩ | ha
    · exact .inl ⟨hp, hread, hnil, hr⟩
    · exact .inr ha
  | taken hne hp hc hb hd hr =>
    obtain ⟨pc, buf⟩ := ch
    simp only at hc
    subst hc
    exact .inr (.inr ⟨0, _, _, _, rfl, rank_lt_of_pc rfl rfl rfl (Nat.add_lt_add_left (Nat.lt_succ_self 7) _)⟩)
  | @raised chunk hne hp hc hb hd hr =>
    right
    right
    obtain ⟨pc, buf⟩ := ch
    simp only at hc hb
    subst hc
    refine ⟨0, _, _, _, child_answer hends (hsize chunk rfl) hb hr, ?_⟩
    have hmap : chunk.map upperChar ≠ [] := by simpa using hne
    have hback : pipeRank 6 { sh.recievePipe with data := chunk.map upperChar } = 6 := pipeRank_ne hmap
    simp only [rank, pipeRank_nil hr, hback]
    generalize pcRank par.pc = r
    simp only [pcRank]
    omega
  | @answered chunk hne hp hc hd hr =>
    right
    left
    obtain ⟨pc, buf⟩ := par
    simp only at hp
    subst hp
    have hrne : sh.recievePipe.data ≠ [] := by
      rw [hr]
      simpa using hne
    refine ⟨0, _, _, _, parent_take (hsize chunk rfl) hne hr, ?_⟩
    simp only [rank, pipeRank_ne hrne, pipeRank_nil]
    generalize pcRank ch.pc = r
    simp only [pcRank]
    omega
  | printing hne hp hb hc hd hr =>
    obtain ⟨pc, buf⟩ := par
    simp only at hp
    subst hp
    exact .inr (.inl ⟨0, _, _, _, rfl, rank_lt_of_pc rfl rfl rfl (Nat.add_lt_add_right (by decide : 2 < 5) _)⟩)

theorem deadlock_of_blocked {s : Global} (hp : (s.loc .parent).pc = .readRecieve)
    (hc : (s.loc .child).pc = .childRead) (hd : s.sh.sendPipe.data = []) (hr : s.sh.recievePipe.data = [])
    (hsend : .parent ∈ s.sh.sendPipe.writers) (hrecieve : .child ∈ s.sh.recievePipe.writers) : Deadlock s := by
  refine ⟨hp, hc, hrecieve, hsend, ?_⟩
  rintro p ⟨k, hk⟩
  cases p with
  | parent => simp [prog, hp, read_blocked hr hrecieve] at hk
  | child => simp [prog, hc, read_blocked hd hsend] at hk

theorem reach_deadlock {input : List Byte} {tr : List Event} {s : Global} {pend : Option (List Byte)}
    (h : Books input tr s pend) : ∃ as tr' s', Run prog s as tr' s' ∧ Deadlock s' := by
  induction hk : rank s.sh (s.loc .parent) (s.loc .child) using Nat.strong_induction_on generalizing s tr pend with
  | _ n ih =>
    subst hk
    rcases pair_advances h.pair with ⟨hp, hc, hd, hr⟩ | ⟨k, sh, l, es, hs, hlt⟩ | ⟨k, sh, l, es, hs, hlt⟩
    · exact ⟨[], [], s, .nil, deadlock_of_blocked hp hc hd hr h.pair.ends.sendWriter
        h.pair.ends.recieveWriter⟩
    · obtain ⟨pend', h'⟩ := joint_step h hs
      obtain ⟨as, tr', s', hr, hd⟩ := ih _ (by simpa using hlt) h' rfl
      exact ⟨_, _, s', hr.cons hs, hd⟩
    · obtain ⟨pend', h'⟩ := joint_step h hs
      obtain ⟨as, tr', s', hr, hd⟩ := ih _ (by simpa using hlt) h' rfl
      exact ⟨_, _, s', hr.cons hs, hd⟩

/-- **Deadlock.** Whatever the input and however it has been read so far, the two processes can still come to wait for
each other. -/
theorem deadlock_reachable (input : List Byte) (buf : Vector Byte 1025) {as : List (Proc × ℕ)} {tr : List Event}
    {s : Global} (h : Run prog (start input buf) as tr s) : ∃ as' tr' s', Run prog s as' tr' s' ∧ Deadlock s' := by
  obtain ⟨pend, hbooks⟩ := run_books h
  exact reach_deadlock hbooks

/-- the first letter of two is on its way to the child -/
theorem deadlock_reachable_ab : ∃ as tr s, Run prog (start [97, 98] (Vector.replicate 1025 0)) as tr s ∧
    tr = [.consumed [97]] ∧ s.sh.sendPipe.data = [97] ∧ ∃ as' tr' s', Run prog s as' tr' s' ∧ Deadlock s' := by
  obtain ⟨s, tr, h, htr, hdata⟩ := exec_any_run prog (start [97, 98] (Vector.replicate 1025 0))
    [(.parent, 0), (.parent, 0), (.parent, 1), (.parent, 0)]
    (fun s tr => tr = [.consumed [97]] ∧ s.sh.sendPipe.data = [97]) (by decide +kernel)
  exact ⟨_, tr, s, h, htr, hdata, deadlock_reachable [97, 98] (Vector.replicate 1025 0) h⟩

/-- the letter is answered; at the end of the input the parent writes nothing and waits for an answer -/
theorem deadlock_a : ∃ as tr s, Run prog (start [97] (Vector.replicate 1025 0)) as tr s ∧
    tr = [.consumed [97], .result [65], .consumed []] ∧ Deadlock s := by
  obtain ⟨s, tr, h, htr, hp, hc, ⟨hd, hr⟩, h1, h2⟩ := exec_any_run prog (start [97] (Vector.replicate 1025 0))
    [(.parent, 0), (.parent, 0), (.parent, 1), (.parent, 0), (.child, 0), (.child, 0), (.child, 0), (.child, 0),
      (.child, 0), (.parent, 0), (.parent, 0), (.parent, 0), (.parent, 0)]
    (fun s tr => tr = [.consumed [97], .result [65], .consumed []] ∧ (s.loc .parent).pc = .readRecieve ∧
      (s.loc .child).pc = .childRead ∧ (s.sh.sendPipe.data = [] ∧ s.sh.recievePipe.data = []) ∧
      .parent ∈ s.sh.sendPipe.writers ∧ .child ∈ s.sh.recievePipe.writers) (by decide +kernel)
  exact ⟨_, tr, s, h, htr, deadlock_of_blocked hp hc hd hr h1 h2⟩

end OsPractice.ToUppercase
