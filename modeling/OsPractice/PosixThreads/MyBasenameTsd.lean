/-
The buffers of `my_basename` and their threads (`POSIXthreads-thrdsf-lclstrg/pathmanip_threadsafe.c`). `main` creates
threads that call `my_basename` and pass its result to `pthread_exit`; then it joins them, and reads what they passed.

While a thread runs, its buffer is its own. But the destructor of the key frees the buffer when the thread exits, before
the thread can be joined. So `main` only ever reads buffers that have been freed, or that `malloc` has given to another
thread since.

There are any number of threads, and `main` creates, joins and reads them in order. What the library answers is a choice
of the environment: `pthread_once` and `pthread_setspecific` may fail, `malloc` may return NULL or any address that is
not in use, and `free` may leave anything behind. The creation of the key does not fail.

Results:
- `frame_step`: a buffer is left alone by everybody but its thread;
- `never_valid`: no read of `main` finds the buffer of the thread that passed it.
-/
import OsPractice.Core.Interleave
import OsPractice.Core.Heap
import OsPractice.PosixThreads.MyBasename

namespace OsPractice.MyBasenameTsd

open Interleave Heap MyBasename Bytes

variable {n : ℕ}

/-! ## The program -/

inductive Proc (n : ℕ) where
  | main
  | thread (i : Fin n)
  deriving DecidableEq, Repr

structure Shared (n : ℕ) where
  mem : Memory Buffer
  /-- the thread that a block has been allocated for -/
  owner : Addr → Option (Fin n)
  /-- `my_basename_key` has been created -/
  key : Bool
  created : Fin n → Bool
  /-- what a thread that has ended has passed to `pthread_exit` -/
  exited : Fin n → Option (Option Addr)

/-- the answers of `pthread_once`, `malloc` and `pthread_setspecific` -/
structure Answer where
  once : ℤ
  alloc : Alloc Buffer
  setspecific : ℤ

inductive ThreadPc where
  | once
  | getspecific
  | malloc
  | setspecific (buf : Addr)
  | write (buf : Addr)
  | exit (ret : Option Addr)
  | destructor (buf : Addr) (ret : Option Addr)
  | dead
  deriving DecidableEq, Repr

inductive MainPc where
  | create (k : ℕ)
  | join (k : ℕ)
  | read (k : ℕ)
  deriving DecidableEq, Repr

inductive Local (n : ℕ) where
  | main (pc : MainPc) (processed : Fin n → Option Addr)
  /-- `specific` is the value of the key -/
  | thread (pc : ThreadPc) (specific : Option Addr)

inductive Event (n : ℕ) where
  /-- `main` has read the result of `t`: whose buffer is there, and its text; `none` for memory that is not allocated -/
  | read (t : Fin n) (found : Option (Fin n × List Byte))
  deriving DecidableEq, Repr

/-- what is allocated at an address -/
def found (sh : Shared n) : Option Addr → Option (Fin n × List Byte)
  | none => none
  | some a => if sh.mem.live a then (sh.owner a).map fun t => (t, (sh.mem.cell a).text) else none

/-- `thread_routine`: `my_basename`, `pthread_exit`, and the destructor if the thread has a value for the key -/
def threadRoutine (path : Option (List Byte)) (i : Fin n) (c : Answer) (sh : Shared n) (specific : Option Addr) :
    ThreadPc → Option (Shared n × ThreadPc × Option Addr)
  | .once => some (if c.once ≠ 0 then (sh, .exit none, specific) else ({ sh with key := true }, .getspecific, specific))
  | .getspecific =>
    match specific with
    | some buf => some (sh, .write buf, specific)
    | none => some (sh, .malloc, specific)
  | .malloc => (malloc c.alloc sh.mem).map fun r =>
    match r.2 with
    | none => ({ sh with mem := r.1 }, .exit none, specific)
    | some buf => ({ sh with mem := r.1, owner := Function.update sh.owner buf (some i) }, .setspecific buf, specific)
  | .setspecific buf => some (if c.setspecific ≠ 0 then (sh, .exit none, specific) else (sh, .write buf, some buf))
  | .write buf => some ({ sh with mem := modify sh.mem buf (writeResult path) }, .exit (some buf), specific)
  | .exit ret =>
    match specific with
    | some buf => some (sh, .destructor buf ret, none)
    | none => some ({ sh with exited := Function.update sh.exited i (some ret) }, .dead, none)
  | .destructor buf ret =>
    some ({ sh with mem := free c.alloc sh.mem buf, exited := Function.update sh.exited i (some ret) }, .dead, specific)
  | .dead => none

def main (sh : Shared n) (processed : Fin n → Option Addr) : MainPc →
    Option (Shared n × MainPc × (Fin n → Option Addr) × List (Event n))
  | .create k =>
    if h : k < n then
      some ({ sh with created := Function.update sh.created ⟨k, h⟩ true }, .create (k + 1), processed, [])
    else some (sh, .join 0, processed, [])
  | .join k =>
    if h : k < n then
      (sh.exited ⟨k, h⟩).map fun ret => (sh, .join (k + 1), Function.update processed ⟨k, h⟩ ret, [])
    else some (sh, .read 0, processed, [])
  | .read k =>
    if h : k < n then some (sh, .read (k + 1), processed, [.read ⟨k, h⟩ (found sh (processed ⟨k, h⟩))]) else none

def prog (args : Fin n → Option (List Byte)) : Prog (Proc n) Answer (Shared n) (Local n) (Event n) := fun p c sh l =>
  match p, l with
  | .main, .main pc processed => (main sh processed pc).map fun r => (r.1, .main r.2.1 r.2.2.1, r.2.2.2)
  | .thread i, .thread pc specific =>
    if sh.created i then
      (threadRoutine (args i) i c sh specific pc).map fun r => (r.1, .thread r.2.1 r.2.2, [])
    else none
  | _, _ => none

abbrev Global (n : ℕ) := St (Proc n) (Shared n) (Local n)

/-- `cell` is what the memory happens to contain -/
def start (cell : Addr → Buffer) : Global n where
  sh := ⟨Heap.empty cell, fun _ => none, false, fun _ => false, fun _ => none⟩
  loc
    | .main => .main (.create 0) fun _ => none
    | .thread _ => .thread .once none

/-! ## Whose buffer it is -/

/-- there is a buffer of thread `t` at `a` -/
def Allocated (sh : Shared n) (t : Fin n) (a : Addr) : Prop := sh.mem.live a = true ∧ sh.owner a = some t

/-- what a step leaves to the threads other than `i` -/
structure Frame (i : Fin n) (sh sh' : Shared n) : Prop where
  allocated : ∀ t, t ≠ i → ∀ a, Allocated sh' t a ↔ Allocated sh t a
  cell : ∀ t, t ≠ i → ∀ a, Allocated sh t a → sh'.mem.cell a = sh.mem.cell a
  exited : ∀ t, t ≠ i → sh'.exited t = sh.exited t

variable {sh sh' : Shared n} {i t : Fin n} {a buf : Addr} {pc pc' : ThreadPc} {specific specific' : Option Addr}
  {c : Answer} {path : Option (List Byte)}

theorem Allocated.ne (h : Allocated sh i a) (ht : t ≠ i) {b : Addr} (hb : Allocated sh t b) : b ≠ a := by
  rintro rfl
  exact ht (Option.some_inj.1 (hb.2.symm.trans h.2))

/-- a step that changes neither the memory nor who has ended -/
theorem Frame.same (hm : sh'.mem = sh.mem) (ho : sh'.owner = sh.owner) (he : sh'.exited = sh.exited) :
    Frame i sh sh' where
  allocated _ _ _ := by rw [Allocated, Allocated, hm, ho]
  cell _ _ _ _ := by rw [hm]
  exited _ _ := by rw [he]

/-- a new buffer -/
theorem Frame.malloc (ha : sh.mem.live buf = false) :
    Frame i sh { sh with mem := alloc sh.mem buf, owner := Function.update sh.owner buf (some i) } where
  allocated t ht a := by
    by_cases hab : a = buf
    · subst hab
      simp [Allocated, ha, Ne.symm ht]
    · simp [Allocated, hab]
  cell _ _ _ _ := rfl
  exited _ _ := rfl

/-- a write to a buffer of `i` -/
theorem Frame.write (h : Allocated sh i buf) (f : Buffer → Buffer) :
    Frame i sh { sh with mem := modify sh.mem buf f } where
  allocated _ _ _ := Iff.rfl
  cell _ ht _ ha := modify_other _ _ (h.ne ht ha)
  exited _ _ := rfl

/-- a buffer of `i` is freed -/
theorem Frame.free (h : Allocated sh i buf) (c : Alloc Buffer) (ret : Option Addr) :
    Frame i sh { sh with mem := free c sh.mem buf, exited := Function.update sh.exited i (some ret) } where
  allocated t ht a := by
    by_cases hab : a = buf
    · subst hab
      have hno : ¬ Allocated sh t a := fun ha => h.ne ht ha rfl
      simpa [Allocated, Heap.free] using fun _ ho => hno ⟨h.1, ho⟩
    · simp [Allocated, hab]
  cell t ht a ha := free_other _ _ (h.ne ht ha)
  exited t ht := Function.update_of_ne ht _ _

/-! ## What a thread knows -/

/-- at the points of `thread_routine`: the thread has not ended, and its value of the key is its buffer -/
def Knows (sh : Shared n) (i : Fin n) (specific : Option Addr) : ThreadPc → Prop
  | .once | .getspecific | .malloc | .exit none => sh.exited i = none ∧ specific = none
  | .setspecific buf => sh.exited i = none ∧ specific = none ∧ Allocated sh i buf
  | .write buf | .exit (some buf) => sh.exited i = none ∧ specific = some buf ∧ Allocated sh i buf
  | .destructor buf ret => sh.exited i = none ∧ ret = some buf ∧ Allocated sh i buf
  | .dead => True

theorem Knows.frame (h : Knows sh t specific pc) (hf : Frame i sh sh') (ht : t ≠ i) : Knows sh' t specific pc := by
  unfold Knows at h ⊢
  split <;> simp only [hf.exited t ht, hf.allocated t ht] <;> exact h

/-- what a step of a thread does: it leaves the other threads alone, and if the thread ends its buffer is gone -/
theorem thread_step (hk : Knows sh i specific pc)
    (hs : threadRoutine path i c sh specific pc = some (sh', pc', specific')) :
    Frame i sh sh' ∧ Knows sh' i specific' pc' ∧ ∀ a, sh'.exited i = some (some a) → ¬ Allocated sh' i a := by
  cases pc with
  | once =>
    obtain ⟨he, rfl⟩ := hk
    simp only [threadRoutine, Option.some_inj] at hs
    split_ifs at hs <;> cases hs
    · exact ⟨.same rfl rfl rfl, ⟨he, rfl⟩, by simp [he]⟩
    · exact ⟨.same rfl rfl rfl, ⟨he, rfl⟩, by simp [he]⟩
  | getspecific =>
    obtain ⟨he, rfl⟩ := hk
    cases hs
    exact ⟨.same rfl rfl rfl, ⟨he, rfl⟩, by simp [he]⟩
  | malloc =>
    obtain ⟨he, rfl⟩ := hk
    obtain ⟨⟨mem, ret⟩, hm, hr⟩ := Option.map_eq_some_iff.1 hs
    cases ret with
    | none =>
      cases hr
      have hmem : mem = sh.mem := by
        unfold Heap.malloc at hm
        split at hm
        · cases hm
          rfl
        · split_ifs at hm
          cases hm
      exact ⟨.same hmem rfl rfl, ⟨he, rfl⟩, by simp [he]⟩
    | some buf =>
      cases hr
      obtain ⟨hlive, rfl⟩ := malloc_some hm
      exact ⟨.malloc hlive, ⟨he, rfl, by simp [Allocated, alloc]⟩, by simp [he]⟩
  | setspecific buf =>
    obtain ⟨he, rfl, ha⟩ := hk
    simp only [threadRoutine, Option.some_inj] at hs
    split_ifs at hs <;> cases hs
    · exact ⟨.same rfl rfl rfl, ⟨he, rfl⟩, by simp [he]⟩
    · exact ⟨.same rfl rfl rfl, ⟨he, rfl, ha⟩, by simp [he]⟩
  | write buf =>
    obtain ⟨he, rfl, ha⟩ := hk
    cases hs
    exact ⟨.write ha _, ⟨he, rfl, ha⟩, by simp [he]⟩
  | exit ret =>
    cases ret with
    | none =>
      obtain ⟨he, rfl⟩ := hk
      cases hs
      refine ⟨⟨fun _ _ _ => Iff.rfl, fun _ _ _ _ => rfl, fun t ht => Function.update_of_ne ht _ _⟩, trivial, by simp⟩
    | some buf =>
      -- the value of the key goes to the destructor
      obtain ⟨he, rfl, ha⟩ := hk
      cases hs
      exact ⟨.same rfl rfl rfl, ⟨he, rfl, ha⟩, by simp [he]⟩
  | destructor buf ret =>
    obtain ⟨he, rfl, ha⟩ := hk
    cases hs
    refine ⟨.free ha _ _, trivial, fun a hex hal => ?_⟩
    have hab : buf = a := by simpa using hex
    subst hab
    simp [Allocated, Heap.free] at hal
  | dead => cases hs

/-! ## Runs -/

/-- what `main` knows: what it has joined has ended with this value -/
def MainKnows (sh : Shared n) (processed : Fin n → Option Addr) : MainPc → Prop
  | .create _ => True
  | .join k => ∀ t : Fin n, t < k → sh.exited t = some (processed t)
  | .read _ => ∀ t, sh.exited t = some (processed t)

structure Inv (s : Global n) : Prop where
  main : ∃ pc processed, s.loc .main = .main pc processed ∧ MainKnows s.sh processed pc
  thread : ∀ i, ∃ pc specific, s.loc (.thread i) = .thread pc specific ∧ Knows s.sh i specific pc
  /-- the buffer of a thread that has ended is gone -/
  gone : ∀ i a, s.sh.exited i = some (some a) → ¬ Allocated s.sh i a

theorem Inv.start (cell : Addr → Buffer) : Inv (start cell : Global n) where
  main := ⟨_, _, rfl, trivial⟩
  thread _ := ⟨_, _, rfl, rfl, rfl⟩
  gone _ _ h := by cases h

variable {s : Global n} {p : Proc n} {l : Local n} {es : List (Event n)} {args : Fin n → Option (List Byte)}

/-- a step of `main`, or of a thread -/
theorem prog_step (h : Inv s) (hs : prog args p c s.sh (s.loc p) = some (sh', l, es)) :
    (p = .main ∧ ∃ pc processed pc' processed', s.loc .main = .main pc processed ∧ MainKnows s.sh processed pc ∧
      main s.sh processed pc = some (sh', pc', processed', es) ∧ l = .main pc' processed') ∨
    ∃ i pc specific pc' specific', p = .thread i ∧ s.loc p = .thread pc specific ∧ Knows s.sh i specific pc ∧
      threadRoutine (args i) i c s.sh specific pc = some (sh', pc', specific') ∧ l = .thread pc' specific' ∧
      es = [] := by
  cases p with
  | main =>
    obtain ⟨pc, processed, hl, hk⟩ := h.main
    rw [hl] at hs
    obtain ⟨r, hr, he⟩ := Option.map_eq_some_iff.1 hs
    cases he
    exact .inl ⟨rfl, _, _, _, _, hl, hk, hr, rfl⟩
  | thread i =>
    obtain ⟨pc, specific, hl, hk⟩ := h.thread i
    rw [hl] at hs
    simp only [prog] at hs
    split_ifs at hs
    obtain ⟨r, hr, he⟩ := Option.map_eq_some_iff.1 hs
    cases he
    exact .inr ⟨i, _, _, _, _, rfl, hl, hk, hr, rfl, rfl⟩

/-- a thread that takes a step has not ended -/
theorem Knows.running (hk : Knows sh i specific pc)
    (hs : threadRoutine path i c sh specific pc = some (sh', pc', specific')) : sh.exited i = none := by
  rcases pc with _ | _ | _ | buf | buf | ret | ⟨buf, ret⟩ | _
  case exit => cases ret <;> exact hk.1
  case dead => cases hs
  all_goals exact hk.1

theorem MainKnows.mono {pc : MainPc} {processed : Fin n → Option Addr} (h : MainKnows sh processed pc)
    (he : ∀ t ret, sh.exited t = some ret → sh'.exited t = some ret) : MainKnows sh' processed pc := by
  cases pc with
  | create k => trivial
  | join k => exact fun t ht => he t _ (h t ht)
  | read k => exact fun t => he t _ (h t)

/-- what a step of `main` does: it reads what a thread has passed, and changes neither the memory nor who has ended -/
theorem main_step {pc pc' : MainPc} {processed processed' : Fin n → Option Addr} (hk : MainKnows sh processed pc)
    (hs : main sh processed pc = some (sh', pc', processed', es)) :
    sh'.mem = sh.mem ∧ sh'.owner = sh.owner ∧ sh'.exited = sh.exited ∧ MainKnows sh' processed' pc' ∧
      ∀ t fnd, .read t fnd ∈ es → ∃ ret, sh.exited t = some ret ∧ fnd = found sh ret := by
  cases pc with
  | create k =>
    simp only [main] at hs
    split_ifs at hs <;> cases hs
    · exact ⟨rfl, rfl, rfl, trivial, by simp⟩
    · exact ⟨rfl, rfl, rfl, fun t ht => absurd ht (Nat.not_lt_zero _), by simp⟩
  | join k =>
    simp only [main] at hs
    split_ifs at hs with hn
    · obtain ⟨ret, hret, he⟩ := Option.map_eq_some_iff.1 hs
      cases he
      refine ⟨rfl, rfl, rfl, fun t ht => ?_, by simp⟩
      by_cases hkt : t = ⟨k, hn⟩
      · rw [hkt, Function.update_self]
        exact hret
      · have hne : (t : ℕ) ≠ k := fun he => hkt (Fin.ext he)
        rw [Function.update_of_ne hkt]
        exact hk t (by omega)
    · cases hs
      exact ⟨rfl, rfl, rfl, fun t => hk t (by omega), by simp⟩
  | read k =>
    simp only [main] at hs
    split_ifs at hs with hn
    cases hs
    refine ⟨rfl, rfl, rfl, hk, fun t fnd hmem => ?_⟩
    obtain ⟨rfl, rfl⟩ := Event.read.inj (List.mem_singleton.1 hmem)
    exact ⟨_, hk _, rfl⟩

/-- the buffers of a thread are left alone by everybody else -/
theorem frame_step (h : Inv s) (hs : prog args p c s.sh (s.loc p) = some (sh', l, es)) (hp : p ≠ .thread t)
    (ha : Allocated s.sh t a) : Allocated sh' t a ∧ sh'.mem.cell a = s.sh.mem.cell a := by
  rcases prog_step h hs with ⟨-, pc, processed, pc', processed', -, hk, hm, -⟩ |
    ⟨i, pc, specific, pc', specific', rfl, -, hk, hr, -, -⟩
  · obtain ⟨hmem, howner, -, -, -⟩ := main_step hk hm
    rw [Allocated, hmem, howner]
    exact ⟨ha, rfl⟩
  · have ht : t ≠ i := fun he => hp (he ▸ rfl)
    obtain ⟨hf, -, -⟩ := thread_step hk hr
    exact ⟨(hf.allocated t ht a).2 ha, hf.cell t ht a ha⟩

theorem Inv.step (h : Inv s) (hs : prog args p c s.sh (s.loc p) = some (sh', l, es)) : Inv (s.move p sh' l) := by
  rcases prog_step h hs with ⟨rfl, pc, processed, pc', processed', -, hk, hm, rfl⟩ |
    ⟨i, pc, specific, pc', specific', rfl, hl, hk, hr, rfl, -⟩
  · obtain ⟨hmem, howner, hexited, hk', -⟩ := main_step hk hm
    have hf : ∀ i, Frame i s.sh sh' := fun i => .same hmem howner hexited
    refine ⟨⟨_, _, by simp, hk'⟩, fun i => ?_, fun i a hex hal => ?_⟩
    · obtain ⟨pc, specific, hl, hkn⟩ := h.thread i
      refine ⟨pc, specific, by simpa using hl, ?_⟩
      unfold Knows Allocated at hkn ⊢
      simpa [hmem, howner, hexited] using hkn
    · rw [St.move_sh, hexited] at hex
      rw [St.move_sh, Allocated, hmem, howner] at hal
      exact h.gone i a hex hal
  · obtain ⟨hf, hk', hgone⟩ := thread_step hk hr
    have hrun := hk.running hr
    have hmono : ∀ t ret, s.sh.exited t = some ret → sh'.exited t = some ret := by
      intro t ret ht
      have hne : t ≠ i := by
        rintro rfl
        cases hrun.symm.trans ht
      rwa [hf.exited t hne]
    refine ⟨?_, fun t => ?_, fun t a hex hal => ?_⟩
    · obtain ⟨pc, processed, hm, hkm⟩ := h.main
      exact ⟨pc, processed, by simpa using hm, hkm.mono hmono⟩
    · by_cases ht : t = i
      · subst ht
        exact ⟨pc', specific', by simp, hk'⟩
      · obtain ⟨pc, specific, hl, hkn⟩ := h.thread t
        exact ⟨pc, specific, by simpa [ht] using hl, hkn.frame hf ht⟩
    · by_cases ht : t = i
      · subst ht
        exact hgone a hex hal
      · exact h.gone t a (by rwa [← hf.exited t ht]) ((hf.allocated t ht a).1 hal)

/-- what is read is not the buffer of the thread that passed it -/
theorem read_step (h : Inv s) (hs : prog args p c s.sh (s.loc p) = some (sh', l, es))
    {fnd : Option (Fin n × List Byte)} (he : .read t fnd ∈ es) (text : List Byte) : fnd ≠ some (t, text) := by
  rcases prog_step h hs with ⟨rfl, pc, processed, pc', processed', -, hk, hm, rfl⟩ |
    ⟨i, pc, specific, pc', specific', -, -, -, -, -, rfl⟩
  · obtain ⟨-, -, -, -, hread⟩ := main_step hk hm
    obtain ⟨ret, hex, rfl⟩ := hread t fnd he
    intro hfound
    cases ret with
    | none => cases hfound
    | some a =>
      simp only [found] at hfound
      split_ifs at hfound with hlive
      obtain ⟨u, hu, hpair⟩ := Option.map_eq_some_iff.1 hfound
      cases hpair
      exact h.gone _ a hex ⟨hlive, hu⟩
  · cases he

theorem run_inv {cell : Addr → Buffer} {as : List (Proc n × Answer)} {tr : List (Event n)}
    (h : Run (prog args) (start cell) as tr s) :
    Inv s ∧ ∀ t fnd, .read t fnd ∈ tr → ∀ text, fnd ≠ some (t, text) := by
  refine h.inv_trace (I := fun tr s => Inv s ∧ ∀ t fnd, .read t fnd ∈ tr → ∀ text, fnd ≠ some (t, text)) ?_ ?_
  · exact ⟨Inv.start cell, by simp⟩
  · rintro tr s p c sh' l es ⟨hinv, hread⟩ hs
    refine ⟨hinv.step hs, fun t fnd hmem text => ?_⟩
    rcases List.mem_append.1 hmem with hmem | hmem
    · exact hread t fnd hmem text
    · exact read_step hinv hs hmem text

/-! ## A run to the end -/

/-- the library finds the first address free -/
def granted (junk : Buffer) : Answer := ⟨0, ⟨some 0, junk⟩, 0⟩

/-- one step of a thread that has been created -/
theorem thread_single (args : Fin n → Option (List Byte)) (hc : sh.created i = true)
    (hs : threadRoutine (args i) i c sh specific pc = some (sh', pc', specific')) :
    Alone (prog args) (.thread i) sh (.thread pc specific) [] sh' (.thread pc' specific') :=
  .single (c := c) (by simp [prog, hc, hs])

theorem thread_alone (args : Fin n → Option (List Byte)) (junk : Buffer) (hc : sh.created i = true)
    (hlive : sh.mem.live 0 = false) : ∃ sh', Alone (prog args) (.thread i) sh (.thread .once none) [] sh'
      (.thread .dead none) ∧ sh'.created = sh.created ∧ sh'.mem.live 0 = false ∧ sh'.exited i = some (some 0) := by
  set got : Shared n :=
    { sh with key := true, mem := alloc sh.mem 0, owner := Function.update sh.owner 0 (some i) }
  set written : Shared n := { got with mem := modify got.mem 0 (writeResult (args i)) }
  set ended : Shared n :=
    { written with
      mem := free ⟨some 0, junk⟩ written.mem 0
      exited := Function.update sh.exited i (some (some 0)) }
  have honce : Alone (prog args) (.thread i) sh (.thread .once none) [] { sh with key := true }
      (.thread .getspecific none) := thread_single (c := granted junk) args hc rfl
  have hget : Alone (prog args) (.thread i) { sh with key := true } (.thread .getspecific none) []
      { sh with key := true } (.thread .malloc none) := thread_single (c := granted junk) args hc rfl
  have hmalloc : Alone (prog args) (.thread i) { sh with key := true } (.thread .malloc none) [] got
      (.thread (.setspecific 0) none) := by
    refine thread_single (c := granted junk) args hc ?_
    simp [threadRoutine, granted, Heap.malloc, hlive, got]
  have hset : Alone (prog args) (.thread i) got (.thread (.setspecific 0) none) [] got
      (.thread (.write 0) (some 0)) := thread_single (c := granted junk) args hc rfl
  have hwrite : Alone (prog args) (.thread i) got (.thread (.write 0) (some 0)) [] written
      (.thread (.exit (some 0)) (some 0)) := thread_single (c := granted junk) args hc rfl
  have hexit : Alone (prog args) (.thread i) written (.thread (.exit (some 0)) (some 0)) [] written
      (.thread (.destructor 0 (some 0)) none) := thread_single (c := granted junk) args hc rfl
  have hfree : Alone (prog args) (.thread i) written (.thread (.destructor 0 (some 0)) none) [] ended
      (.thread .dead none) := thread_single (c := granted junk) args hc rfl
  refine ⟨ended, ?_, rfl, by simp [ended, Heap.free], by simp [ended]⟩
  exact honce.trans (hget.trans (hmalloc.trans (hset.trans (hwrite.trans (hexit.trans hfree)))))

/-- `main` has created the first `k` threads -/
theorem create_run (args : Fin n → Option (List Byte)) (cell : Addr → Buffer) (k : ℕ) (hk : k ≤ n) :
    ∃ as s, Run (prog args) (start cell) as [] s ∧ s.loc .main = .main (.create k) (fun _ => none) ∧
      (∀ i : Fin n, i < k → s.sh.created i = true) ∧ (∀ i, s.loc (.thread i) = .thread .once none) ∧
      s.sh.mem.live 0 = false := by
  induction k with
  | zero => exact ⟨[], start cell, .nil, rfl, fun i hi => absurd hi (Nat.not_lt_zero _), fun _ => rfl, rfl⟩
  | succ k ih =>
    obtain ⟨as, s, hr, hmain, hcr, hth, hlive⟩ := ih (Nat.le_of_succ_le hk)
    have hs : prog args .main (granted (cell 0)) s.sh (s.loc .main) =
        some ({ s.sh with created := Function.update s.sh.created ⟨k, hk⟩ true },
          .main (.create (k + 1)) (fun _ => none), []) := by
      rw [hmain]
      simp [prog, main, Nat.lt_of_succ_le hk]
    refine ⟨_, _, hr.snoc hs, by simp, fun i hi => ?_, fun i => by simpa using hth i, hlive⟩
    by_cases hik : i = ⟨k, hk⟩
    · simp [hik]
    · have hne : (i : ℕ) ≠ k := fun he => hik (Fin.ext he)
      simpa [hik] using hcr i (by omega)

/-- the first `k` threads have ended one after another, and have been joined -/
theorem join_run (args : Fin n → Option (List Byte)) (cell : Addr → Buffer) (k : ℕ) (hk : k ≤ n) :
    ∃ as s processed, Run (prog args) (start cell) as [] s ∧ s.loc .main = .main (.join k) processed ∧
      (∀ i, s.sh.created i = true) ∧ (∀ i : Fin n, k ≤ i → s.loc (.thread i) = .thread .once none) ∧
      s.sh.mem.live 0 = false := by
  induction k with
  | zero =>
    obtain ⟨as, s, hr, hmain, hcr, hth, hlive⟩ := create_run args cell n le_rfl
    have hs : prog args .main (granted (cell 0)) s.sh (s.loc .main) =
        some (s.sh, .main (.join 0) (fun _ => none), []) := by
      rw [hmain]
      simp [prog, main]
    exact ⟨_, _, _, hr.snoc hs, by simp; rfl, fun i => hcr i i.isLt, fun i _ => by simpa using hth i, hlive⟩
  | succ k ih =>
    obtain ⟨as, s, processed, hr, hmain, hcr, hth, hlive⟩ := ih (Nat.le_of_succ_le hk)
    obtain ⟨sh', halone, hcr', hlive', hex⟩ := thread_alone (i := ⟨k, hk⟩) args (cell 0) (hcr _) hlive
    rw [← hth ⟨k, hk⟩ le_rfl] at halone
    obtain ⟨bs, hr'⟩ := halone.run
    have hs : prog args .main (granted (cell 0)) sh' ((s.move (.thread ⟨k, hk⟩) sh' (.thread .dead none)).loc .main) =
        some (sh', .main (.join (k + 1)) (Function.update processed ⟨k, hk⟩ (some 0)), []) := by
      simp [hmain, prog, main, Nat.lt_of_succ_le hk, hex]
    refine ⟨_, _, _, (hr.append hr').snoc hs, by simp; rfl, fun i => by simpa [hcr'] using hcr i, fun i hi => ?_, hlive'⟩
    have hne : i ≠ ⟨k, hk⟩ := by
      rintro rfl
      exact absurd hi (by simp)
    simpa [hne] using hth i (Nat.le_of_succ_le hi)

/-- `main` has read the results of the first `k` threads -/
theorem read_run (args : Fin n → Option (List Byte)) (cell : Addr → Buffer) (k : ℕ) (hk : k ≤ n) :
    ∃ as tr s processed, Run (prog args) (start cell) as tr s ∧ s.loc .main = .main (.read k) processed ∧
      ∀ i : Fin n, i < k → ∃ fnd, .read i fnd ∈ tr := by
  induction k with
  | zero =>
    obtain ⟨as, s, processed, hr, hmain, -⟩ := join_run args cell n le_rfl
    have hs : prog args .main (granted (cell 0)) s.sh (s.loc .main) =
        some (s.sh, .main (.read 0) processed, []) := by
      rw [hmain]
      simp [prog, main]
    exact ⟨_, _, _, _, hr.snoc hs, by simp; rfl, fun i hi => absurd hi (Nat.not_lt_zero _)⟩
  | succ k ih =>
    obtain ⟨as, tr, s, processed, hr, hmain, hread⟩ := ih (Nat.le_of_succ_le hk)
    have hs : prog args .main (granted (cell 0)) s.sh (s.loc .main) =
        some (s.sh, .main (.read (k + 1)) processed, [.read ⟨k, hk⟩ (found s.sh (processed ⟨k, hk⟩))]) := by
      rw [hmain]
      simp [prog, main, Nat.lt_of_succ_le hk]
    refine ⟨_, _, _, _, hr.snoc hs, by simp; rfl, fun i hi => ?_⟩
    by_cases hik : i = ⟨k, hk⟩
    · exact ⟨_, List.mem_append_right _ (List.mem_singleton.2 (by rw [hik]))⟩
    · have hne : (i : ℕ) ≠ k := fun he => hik (Fin.ext he)
      obtain ⟨fnd, hmem⟩ := hread i (by omega)
      exact ⟨fnd, List.mem_append_left _ hmem⟩

/-- **Results after the exit.** For every number of threads and all their arguments: in every run, a buffer that is
allocated to a thread is changed by nobody else; but no read of `main` finds, at the pointer that a thread has passed, a
buffer of that thread, with any text. And there is a run in which `main` reads the results of all threads. -/
theorem never_valid (args : Fin n → Option (List Byte)) (cell : Addr → Buffer) :
    (∀ as tr s, Run (prog args) (start cell) as tr s →
      (∀ t a p c sh l es, Allocated s.sh t a → p ≠ .thread t → prog args p c s.sh (s.loc p) = some (sh, l, es) →
        Allocated sh t a ∧ sh.mem.cell a = s.sh.mem.cell a) ∧
      ∀ t fnd, .read t fnd ∈ tr → ∀ text, fnd ≠ some (t, text)) ∧
    ∃ as tr s, Run (prog args) (start cell) as tr s ∧ ∀ t, ∃ fnd, .read t fnd ∈ tr := by
  constructor
  · intro as tr s h
    obtain ⟨hinv, hread⟩ := run_inv h
    exact ⟨fun t a p c sh l es ha hp hs => frame_step hinv hs hp ha, hread⟩
  · obtain ⟨as, tr, s, processed, hr, -, hread⟩ := read_run args cell n le_rfl
    exact ⟨as, tr, s, hr, fun t => hread t t.isLt⟩

def zeros : Buffer := ⟨List.replicate PATH_MAX 0, by simp⟩

/-- the two threads of `main` run one after the other, and `main` reads their results -/
def oneByOne : List (Proc 2 × Answer) :=
  (List.replicate 3 Proc.main ++ List.replicate 7 (Proc.thread 0) ++ List.replicate 7 (Proc.thread 1) ++
    List.replicate 5 Proc.main).map fun p => (p, granted zeros)

/-- both work on `/aaa`; what `main` reads is not allocated -/
theorem read_freed : ∃ s tr, Run (prog fun _ : Fin 2 => some [47, 97, 97, 97]) (start fun _ => zeros) oneByOne tr s ∧
    tr = [.read 0 none, .read 1 none] :=
  exec_any_run _ _ _ (fun _ tr => tr = [Event.read 0 none, Event.read 1 none]) (by decide +kernel)

end OsPractice.MyBasenameTsd
