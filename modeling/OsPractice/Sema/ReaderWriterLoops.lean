/-
The reader and writer threads of both reader/writer programs (`sema/reader-writer.c`, `sema/reader-writer-nostarve.c`):
each repeats a call pair `loops` times, a reader prints `value` in between, a writer increments it and prints it.

The load and the store of `value++` are separate steps, and so are the load for a `printf` and the output itself. The
lock is any implementation of the four functions that excludes (`RwImpl.Excludes`).

Results:
- `loops_no_deadlock`: with either lock, a state with an unfinished thread has a thread that can step;
- `run_inv`: the data invariant. `value` is the number of stores, the writers have printed 1, 2, ... up to the number of
  their prints, and every value printed by a reader is the number of write sections completed before;
- `finished_value`: what that gives when all threads have finished.
-/
import OsPractice.Sema.ReaderWriterNostarve

namespace OsPractice.ReaderWriterLoops

open Interleave LockClient RwImpl

/-! ## Model -/

/-- the points of a thread between acquire and release -/
inductive Point where
  | loadRead
  | printRead (tmp : ℤ)
  | loadIncrement
  | storeIncrement (tmp : ℤ)
  | loadWrite
  | printWrite (tmp : ℤ)
  | done
  deriving DecidableEq, Repr

inductive Print where
  | read (v : ℤ)
  | write (v : ℤ)
  deriving DecidableEq, Repr

def entry : Mode → Point
  | .read => .loadRead
  | .write => .loadIncrement

/-- the locals of `reader` and `writer`; `role` says which of the two the thread runs -/
structure Local where
  role : Mode
  i : ℕ
  pc : Point
  deriving DecidableEq, Repr

def readerWriter (loops : ℤ) : Client Mode ℤ Local Print where
  next _ b := if (b.i : ℤ) < loops then some (b.role, b) else none
  body _ value b :=
    match b.pc with
    -- printf("read %d\n", value)
    | .loadRead => some (value, { b with pc := .printRead value }, [])
    | .printRead tmp => some (value, { b with pc := .done }, [.read tmp])
    -- value++
    | .loadIncrement => some (value, { b with pc := .storeIncrement value }, [])
    | .storeIncrement tmp => some (tmp + 1, { b with pc := .loadWrite }, [])
    -- printf("write %d\n", value)
    | .loadWrite => some (value, { b with pc := .printWrite value }, [])
    | .printWrite tmp => some (value, { b with pc := .done }, [.write tmp])
    | .done => none
  after b := { b with i := b.i + 1, pc := entry b.role }

def begin (role : Mode) : Local := { role := role, i := 0, pc := entry role }

/-- `num_readers` readers and `num_writers` writers -/
def role {numReaders numWriters : ℕ} : Fin numReaders ⊕ Fin numWriters → Mode
  | .inl _ => .read
  | .inr _ => .write

/-! ## Progress -/

/-- **No deadlock.** For any numbers of readers and writers and any loop count, with either lock: in every state of
every run, if a thread has not finished then some thread can step. -/
theorem loops_no_deadlock (numReaders numWriters : ℕ) (loops : ℤ) :
    (∀ as tr s, Run (prog ReaderWriter.rwlock.impl (readerWriter loops))
        (start ReaderWriter.rwlock.impl 0 fun t : Fin numReaders ⊕ Fin numWriters => begin (role t)) as tr s →
      (∃ t, ¬ Finished (readerWriter loops) s t) →
      ∃ t, CanStep (prog ReaderWriter.rwlock.impl (readerWriter loops)) s t) ∧
    ∀ as tr s, Run (prog ReaderWriterNostarve.rwlock.impl (readerWriter loops))
        (start ReaderWriterNostarve.rwlock.impl 0 fun t : Fin numReaders ⊕ Fin numWriters => begin (role t)) as tr s →
      (∃ t, ¬ Finished (readerWriter loops) s t) →
      ∃ t, CanStep (prog ReaderWriterNostarve.rwlock.impl (readerWriter loops)) s t := by
  refine ⟨?_, ?_⟩
  · intro as tr s h hf
    exact ReaderWriter.no_deadlock _ _ _ h hf
  · intro as tr s h hf
    exact ReaderWriterNostarve.nostarve_no_deadlock _ _ _ h hf

/-- a reader and a writer that repeat their call pair once -/
abbrev readerAndWriter {S AR RR AW RW : Type} (rw : RwFunctions S AR RR AW RW) :
    Prog (Fin 1 ⊕ Fin 1) Unit (Shared S ℤ) (Loc Mode (Acquire AR AW) (Release RR RW) Local)
      (LockClient.Event (Fin 1 ⊕ Fin 1) Mode Print) :=
  prog rw.impl (readerWriter 1)

/-- the reader takes `n` steps, and then the writer `k` -/
def readerThenWriter (n k : ℕ) : List ((Fin 1 ⊕ Fin 1) × Unit) :=
  List.replicate n (.inl 0, ()) ++ List.replicate k (.inr 0, ())

/-- with either lock, a reader that holds, and a writer that waits for it -/
theorem loops_no_deadlock_two :
    (∃ as tr s, Run (readerAndWriter ReaderWriter.rwlock) (start ReaderWriter.rwlock.impl 0 fun t => begin (role t))
        as tr s ∧
      phases s (.inl 0) = .holding .read ∧ ¬ CanStep (readerAndWriter ReaderWriter.rwlock) s (.inr 0) ∧
      ∃ t, CanStep (readerAndWriter ReaderWriter.rwlock) s t) ∧
    ∃ as tr s, Run (readerAndWriter ReaderWriterNostarve.rwlock)
        (start ReaderWriterNostarve.rwlock.impl 0 fun t => begin (role t)) as tr s ∧
      phases s (.inl 0) = .holding .read ∧ ¬ CanStep (readerAndWriter ReaderWriterNostarve.rwlock) s (.inr 0) ∧
      ∃ t, CanStep (readerAndWriter ReaderWriterNostarve.rwlock) s t := by
  refine ⟨?_, ?_⟩
  · obtain ⟨s, tr, h, hr, hw⟩ := exec_any_run (readerAndWriter ReaderWriter.rwlock)
      (start ReaderWriter.rwlock.impl 0 fun t => begin (role t)) (readerThenWriter 7 1)
      (fun s _ => phases s (.inl 0) = .holding .read ∧
        (readerAndWriter ReaderWriter.rwlock (.inr 0) () s.sh (s.loc (.inr 0))).isNone) (by decide +kernel)
    refine ⟨_, tr, s, h, hr, not_canStep_of_isNone hw, (loops_no_deadlock 1 1 1).1 _ tr s h ⟨.inl 0, ?_⟩⟩
    rintro ⟨hout, -⟩
    cases hr.symm.trans hout
  · obtain ⟨s, tr, h, hr, hw⟩ := exec_any_run (readerAndWriter ReaderWriterNostarve.rwlock)
      (start ReaderWriterNostarve.rwlock.impl 0 fun t => begin (role t)) (readerThenWriter 9 2)
      (fun s _ => phases s (.inl 0) = .holding .read ∧
        (readerAndWriter ReaderWriterNostarve.rwlock (.inr 0) () s.sh (s.loc (.inr 0))).isNone) (by decide +kernel)
    refine ⟨_, tr, s, h, hr, not_canStep_of_isNone hw, (loops_no_deadlock 1 1 1).2 _ tr s h ⟨.inl 0, ?_⟩⟩
    rintro ⟨hout, -⟩
    cases hr.symm.trans hout

/-! ## Counting the sections -/

/-- completed write sections: the release has returned -/
def completed (b : Local) : ℕ := if b.role = .write then b.i else 0

/-- increments stored -/
def stored (b : Local) : ℕ :=
  match b.pc with
  | .loadWrite => completed b + 1
  | .printWrite _ => completed b + 1
  | .done => if b.role = .write then b.i + 1 else 0
  | _ => completed b

/-- lines printed by a writer -/
def printed (b : Local) : ℕ :=
  match b.pc with
  | .done => if b.role = .write then b.i + 1 else 0
  | _ => completed b

/-- the values printed by the writers, in order -/
def writes {T : Type} (tr : List (Event T Mode Print)) : List ℤ :=
  tr.filterMap fun
    | .client _ (.write v) => some v
    | _ => none

/-- the numbers 1, ..., n -/
def oneTo (n : ℕ) : List ℤ := (List.range n).map fun k : ℕ => (k : ℤ) + 1

theorem oneTo_succ (n : ℕ) : oneTo (n + 1) = oneTo n ++ [(n : ℤ) + 1] := by
  unfold oneTo
  rw [List.range_succ, List.map_append]
  rfl

/-- the number of write sections completed in a trace -/
def writeSections {T : Type} (tr : List (Event T Mode Print)) : ℕ :=
  tr.countP fun
    | .released _ .write => true
    | _ => false

/-! ## The data invariant -/

/-- the points of a section by mode -/
def Inside : Mode → Point → Prop
  | .read, .loadRead => True
  | .read, .printRead _ => True
  | .write, .loadIncrement => True
  | .write, .storeIncrement _ => True
  | .write, .loadWrite => True
  | .write, .printWrite _ => True
  | _, .done => True
  | _, _ => False

/-- where a thread is inside its loop, `n` being the number of iterations -/
def Fits {AR RR AW RW : Type} (n : ℕ) (l : Loc Mode (Acquire AR AW) (Release RR RW) Local) : Prop :=
  match l.phase with
  | .out => l.client.pc = entry l.client.role ∧ l.client.i ≤ n
  | .acquiring p => acquireMode p = l.client.role ∧ l.client.pc = entry l.client.role ∧ l.client.i < n
  | .holding m => m = l.client.role ∧ Inside m l.client.pc ∧ l.client.i < n
  | .releasing p => releaseMode p = l.client.role ∧ l.client.pc = .done ∧ l.client.i < n

/-- a loaded value is still the value -/
def Register (value : ℤ) : Point → Prop
  | .printRead tmp => tmp = value
  | .storeIncrement tmp => tmp = value
  | .printWrite tmp => tmp = value
  | _ => True

variable {S AR RR AW RW T : Type} [Fintype T]

structure Inv (n : ℕ) (tr : List (Event T Mode Print))
    (s : St T (Shared S ℤ) (Loc Mode (Acquire AR AW) (Release RR RW) Local)) : Prop where
  fits : ∀ t, Fits n (s.loc t)
  register : ∀ t, Register s.sh.data (s.loc t).client.pc
  value : s.sh.data = total (fun l => stored l.client) s.loc
  written : writes tr = oneTo (total (fun l => printed l.client) s.loc)
  sections : writeSections tr = total (fun l => completed l.client) s.loc
  reads : ∀ pre t (v : ℤ) post, tr = pre ++ .client t (.read v) :: post → v = writeSections pre

theorem register_of_not_holding {n : ℕ} {l : Loc Mode (Acquire AR AW) (Release RR RW) Local} (h : Fits n l)
    (hl : ∀ m, l.phase ≠ .holding m) (value : ℤ) : Register value l.client.pc := by
  unfold Fits at h
  split at h
  · rw [h.1]; cases l.client.role <;> trivial
  · rw [h.2.1]; cases l.client.role <;> trivial
  · rename_i m hm
    exact absurd hm (hl m)
  · rw [h.2.1]; trivial

/-- outside the section every store has been printed -/
theorem stored_eq_printed {n : ℕ} {l : Loc Mode (Acquire AR AW) (Release RR RW) Local} (h : Fits n l)
    (hl : ∀ m, l.phase ≠ .holding m) : stored l.client = printed l.client := by
  unfold Fits at h
  split at h
  · unfold stored printed; rw [h.1]; cases l.client.role <;> rfl
  · unfold stored printed; rw [h.2.1]; cases l.client.role <;> rfl
  · rename_i m hm
    exact absurd hm (hl m)
  · unfold stored printed; rw [h.2.1]

/-- a thread that is not a writer between its acquire and the end of its release has completed all it has stored -/
theorem stored_eq_completed {n : ℕ} {l : Loc Mode (Acquire AR AW) (Release RR RW) Local} (h : Fits n l)
    (hl : ¬ (l.phase = .holding .write ∨ ∃ p, l.phase = .releasing (.write p))) :
    stored l.client = completed l.client := by
  unfold Fits at h
  split at h
  · unfold stored; rw [h.1]; cases l.client.role <;> rfl
  · unfold stored; rw [h.2.1]; cases l.client.role <;> rfl
  · rename_i m hm
    cases m with
    | read =>
      obtain ⟨h1, h2, -⟩ := h
      unfold stored completed
      rw [← h1]
      cases hq : l.client.pc <;> rw [hq] at h2 <;> first | rfl | cases h2
    | write => exact absurd (.inl hm) hl
  · rename_i p hp
    cases p with
    | read p =>
      obtain ⟨h1, h2, -⟩ := h
      unfold stored completed
      rw [h2, ← h1]
      rfl
    | write p => exact absurd (.inr ⟨p, hp⟩) hl

omit [Fintype T] in
theorem writes_append (tr es : List (Event T Mode Print)) : writes (tr ++ es) = writes tr ++ writes es :=
  List.filterMap_append

omit [Fintype T] in
theorem writeSections_append (tr es : List (Event T Mode Print)) :
    writeSections (tr ++ es) = writeSections tr + writeSections es := List.countP_append

variable [DecidableEq T]

/-- one step keeps the invariant when the thread that makes it fits, counts what it stores, prints and completes, and
changes `value` only while nobody else is in a section -/
theorem Inv.move {n : ℕ} {tr es : List (Event T Mode Print)}
    {s : St T (Shared S ℤ) (Loc Mode (Acquire AR AW) (Release RR RW) Local)} {t : T} {sh : Shared S ℤ}
    {l : Loc Mode (Acquire AR AW) (Release RR RW) Local} (h : Inv n tr s) (hfits : Fits n l)
    (hreg : Register sh.data l.client.pc)
    (hother : sh.data = s.sh.data ∨ ∀ u, u ≠ t → ∀ m, (s.loc u).phase ≠ .holding m)
    (hvalue : sh.data + stored (s.loc t).client = s.sh.data + stored l.client)
    (hwrites : (writes es = [] ∧ printed l.client = printed (s.loc t).client) ∨
      (writes es = [(total (fun l => printed l.client) s.loc : ℤ) + 1] ∧
        printed l.client = printed (s.loc t).client + 1))
    (hsections : writeSections es + completed (s.loc t).client = completed l.client)
    (hreads : (∀ u v, .client u (.read v) ∉ es) ∨
      ∃ u, ∃ v : ℤ, es = [.client u (.read v)] ∧ v = writeSections tr) :
    Inv n (tr ++ es) (s.move t sh l) := by
  have hS := total_update (fun l => stored l.client) s.loc t l
  have hP := total_update (fun l => printed l.client) s.loc t l
  have hC := total_update (fun l => completed l.client) s.loc t l
  have hv := h.value
  have hs := h.sections
  refine ⟨?_, ?_, ?_, ?_, ?_, ?_⟩
  · exact s.forall_move (p := fun _ l => Fits n l) sh hfits fun u _ => h.fits u
  · refine s.forall_move (p := fun _ l => Register sh.data l.client.pc) sh hreg fun u hu => ?_
    rcases hother with h1 | h1
    · rw [h1]; exact h.register u
    · exact register_of_not_holding (h.fits u) (h1 u hu) _
  · simp only [St.move_loc, St.move_sh]
    omega
  · rw [writes_append, h.written, St.move_loc]
    rcases hwrites with ⟨h1, h2⟩ | ⟨h1, h2⟩
    · have h3 : total (fun l => printed l.client) (Function.update s.loc t l) =
        total (fun l => printed l.client) s.loc := by omega
      rw [h1, List.append_nil, h3]
    · have h3 : total (fun l => printed l.client) (Function.update s.loc t l) =
        total (fun l => printed l.client) s.loc + 1 := by omega
      rw [h1, h3, oneTo_succ]
  · rw [writeSections_append, St.move_loc]
    omega
  · intro pre u v post he
    -- the printed value is in the new events, after `as`
    have hnew : ∀ as, es = as ++ .client u (.read v) :: post → pre = tr ++ as → v = writeSections pre := by
      intro as h1 h2
      rcases hreads with h3 | ⟨u', v', h3, h4⟩
      · exact absurd (h1 ▸ by simp) (h3 u v)
      · rw [h3] at h1
        obtain ⟨rfl, h5⟩ | ⟨-, h5⟩ := List.singleton_eq_append_iff.1 h1
        · cases h5
          rw [h2, List.append_nil]
          exact h4
        · cases h5
    rcases List.append_eq_append_iff.1 he with ⟨as, h1, h2⟩ | ⟨as, h1, h2⟩
    · exact hnew as h2 h1
    · rcases List.cons_eq_append_iff.1 h2 with ⟨rfl, h3⟩ | ⟨as', rfl, h3⟩
      · exact hnew [] h3 (by simp [h1])
      · exact h.reads pre u v as' h1

/-- a step that leaves the client's data alone and shows nothing but a call or the return of an acquire -/
theorem Inv.quiet {n : ℕ} {tr es : List (Event T Mode Print)}
    {s : St T (Shared S ℤ) (Loc Mode (Acquire AR AW) (Release RR RW) Local)} {t : T} {sh : Shared S ℤ}
    {l : Loc Mode (Acquire AR AW) (Release RR RW) Local} (h : Inv n tr s) (hfits : Fits n l)
    (hd : sh.data = s.sh.data) (hc : l.client = (s.loc t).client)
    (he : writes es = [] ∧ writeSections es = 0 ∧ ∀ u v, .client u (.read v) ∉ es) :
    Inv n (tr ++ es) (s.move t sh l) := by
  refine h.move hfits ?_ (.inl hd) (by rw [hd, hc]) (.inl ⟨he.1, by rw [hc]⟩) (by rw [he.2.1, hc, Nat.zero_add])
    (.inl he.2.2)
  rw [hd, hc]
  exact h.register t

/-- exclusion in one state -/
def Exclusive (s : St T (Shared S ℤ) (Loc Mode (Acquire AR AW) (Release RR RW) Local)) : Prop :=
  ∀ t u, t ≠ u → (phases s t = .holding .write ∨ ∃ p, phases s t = .releasing (.write p)) →
    ∀ m, phases s u ≠ .holding m

omit [DecidableEq T] in
/-- while a thread holds the read lock, the value is the number of completed write sections -/
theorem value_eq_sections {n : ℕ} {tr : List (Event T Mode Print)}
    {s : St T (Shared S ℤ) (Loc Mode (Acquire AR AW) (Release RR RW) Local)} {t : T} (h : Inv n tr s)
    (hex : Exclusive s) (ht : phases s t = .holding .read) : s.sh.data = writeSections tr := by
  rw [h.value, h.sections]
  congr 1
  refine total_congr fun u => stored_eq_completed (h.fits u) ?_
  intro hu
  have hne : u ≠ t := by
    rintro rfl
    simp only [phases] at ht
    rw [ht] at hu
    rcases hu with hu | ⟨p, hu⟩ <;> cases hu
  exact hex u t hne hu .read ht

/-- a step of the section -/
theorem inv_body {loops : ℤ} {n : ℕ} {tr : List (Event T Mode Print)}
    {s : St T (Shared S ℤ) (Loc Mode (Acquire AR AW) (Release RR RW) Local)} {t : T} {x : S} {d d' : ℤ} {b b' : Local}
    {m : Mode} {xs : List Print} (h : Inv n tr s) (hex : Exclusive s)
    (hb : (readerWriter loops).body m d b = some (d', b', xs)) (hsh : s.sh = ⟨x, d⟩)
    (hl : s.loc t = ⟨.holding m, b⟩) :
    Inv n (tr ++ xs.map (.client t)) (s.move t ⟨x, d'⟩ ⟨.holding m, b'⟩) := by
  obtain ⟨r, i, pc⟩ := b
  have hf := h.fits t
  have hr := h.register t
  rw [hl] at hf hr
  rw [hsh] at hr
  obtain ⟨rfl, hin, hi⟩ := hf
  have hph : phases s t = .holding m := by simp only [phases, hl]
  cases m with
  | read =>
    cases pc with
    | loadRead =>
      cases hb
      refine h.move ⟨rfl, trivial, hi⟩ rfl (.inl (by rw [hsh])) ?_ (.inl ⟨rfl, ?_⟩) ?_ (.inl (by simp)) <;>
        rw [hl] <;> simp [hsh, stored, printed, completed, writeSections]
    | printRead tmp =>
      cases hb
      obtain rfl : tmp = d := hr
      have hv := value_eq_sections h hex hph
      rw [hsh] at hv
      refine h.move ⟨rfl, trivial, hi⟩ trivial (.inl (by rw [hsh])) ?_ (.inl ⟨rfl, ?_⟩) ?_
        (.inr ⟨t, tmp, rfl, hv⟩) <;>
        rw [hl] <;> simp [hsh, stored, printed, completed, writeSections]
    | done => cases hb
    | _ => cases hin
  | write =>
    have hout : ∀ u, u ≠ t → ∀ m, (s.loc u).phase ≠ .holding m := fun u hu => hex t u hu.symm (.inl hph)
    cases pc with
    | loadIncrement =>
      cases hb
      refine h.move ⟨rfl, trivial, hi⟩ rfl (.inl (by rw [hsh])) ?_ (.inl ⟨rfl, ?_⟩) ?_ (.inl (by simp)) <;>
        rw [hl] <;> simp [hsh, stored, printed, completed, writeSections]
    | storeIncrement tmp =>
      cases hb
      obtain rfl : tmp = d := hr
      refine h.move ⟨rfl, trivial, hi⟩ trivial (.inr hout) ?_ (.inl ⟨rfl, ?_⟩) ?_ (.inl (by simp)) <;>
        rw [hl] <;> simp [hsh, stored, printed, completed, writeSections]
      omega
    | loadWrite =>
      cases hb
      refine h.move ⟨rfl, trivial, hi⟩ rfl (.inl (by rw [hsh])) ?_ (.inl ⟨rfl, ?_⟩) ?_ (.inl (by simp)) <;>
        rw [hl] <;> simp [hsh, stored, printed, completed, writeSections]
    | printWrite tmp =>
      cases hb
      obtain rfl : tmp = d := hr
      -- this thread has stored once more than it has printed, the others as often
      have htot : total (fun l => stored l.client) s.loc = total (fun l => printed l.client) s.loc + 1 :=
        total_eq_add t (by rw [hl]; rfl) fun u hu => stored_eq_printed (h.fits u) (hout u hu)
      have hv := h.value
      rw [hsh, htot] at hv
      have hw : writes [Event.client t (Print.write tmp)] = [(total (fun l => printed l.client) s.loc : ℤ) + 1] := by
        rw [← Nat.cast_add_one, ← hv]
        rfl
      refine h.move ⟨rfl, trivial, hi⟩ trivial (.inl (by rw [hsh])) ?_ (.inr ⟨hw, ?_⟩) ?_ (.inl (by simp)) <;>
        rw [hl] <;> simp [hsh, stored, printed, completed, writeSections]
    | done => cases hb
    | _ => cases hin

/-- one step keeps the invariant -/
theorem inv_step {F : RwFunctions S AR RR AW RW} {loops : ℤ} {tr es : List (Event T Mode Print)}
    {s : St T (Shared S ℤ) (Loc Mode (Acquire AR AW) (Release RR RW) Local)} {t : T} {c : Unit} {sh : Shared S ℤ}
    {l : Loc Mode (Acquire AR AW) (Release RR RW) Local} (h : Inv loops.toNat tr s) (hex : Exclusive s)
    (hs : prog F.impl (readerWriter loops) t c s.sh (s.loc t) = some (sh, l, es)) :
    Inv loops.toNat (tr ++ es) (s.move t sh l) := by
  have hst := prog_step hs
  have hf := h.fits t
  generalize hsh : s.sh = x0 at hst
  generalize hl : s.loc t = l0 at hst
  rw [hl] at hf
  cases hst with
  | @call x d b m b' hn =>
    simp only [readerWriter] at hn
    split_ifs at hn with hi
    cases hn
    refine h.quiet ⟨?_, hf.1, ?_⟩ (by rw [hsh]) (by rw [hl]) ⟨rfl, rfl, by simp⟩
    · cases b.role <;> rfl
    · simp only
      omega
  | acquiring ha =>
    refine h.quiet ⟨?_, hf.2⟩ (by rw [hsh]) (by rw [hl]) ⟨rfl, rfl, by simp⟩
    rw [acquireMode_next ha]
    exact hf.1
  | @acquired c x x' d b p m ha =>
    obtain ⟨h1, h2, h3⟩ := hf
    refine h.quiet ⟨by rw [acquireMode_return ha]; exact h1, ?_, h3⟩ (by rw [hsh]) (by rw [hl]) ⟨rfl, rfl, by simp⟩
    simp only at h1 h2
    rw [acquireMode_return ha, h1, h2]
    cases b.role <;> trivial
  | body hb => exact inv_body h hex hb hsh hl
  | @release x d b m hb =>
    obtain ⟨h1, h2, h3⟩ := hf
    refine h.quiet ⟨?_, ?_, h3⟩ (by rw [hsh]) (by rw [hl]) ⟨rfl, rfl, by simp⟩
    · simp only at h1 ⊢
      rw [← h1]
      cases m <;> rfl
    · simp only [readerWriter] at hb
      split at hb <;> first | assumption | cases hb
  | releasing hr =>
    refine h.quiet ⟨?_, hf.2⟩ (by rw [hsh]) (by rw [hl]) ⟨rfl, rfl, by simp⟩
    rw [releaseMode_next hr]
    exact hf.1
  | @released c x x' d b p m hr =>
    obtain ⟨r, i, pc⟩ := b
    obtain ⟨h1, h2, h3⟩ := hf
    obtain rfl : m = r := (releaseMode_return hr).trans h1
    obtain rfl : pc = .done := h2
    cases m <;> refine h.move ⟨rfl, h3⟩ trivial (.inl (by rw [hsh])) ?_ (.inl ⟨rfl, ?_⟩) ?_ (.inl (by simp)) <;>
      rw [hl] <;> simp [hsh, readerWriter, stored, printed, completed, writeSections, entry]
    omega

/-! ## Runs -/

omit [Fintype T] in
theorem completed_begin (r : Mode) : stored (begin r) = 0 ∧ printed (begin r) = 0 ∧ completed (begin r) = 0 := by
  cases r <;> exact ⟨rfl, rfl, rfl⟩

theorem run_inv {F : RwFunctions S AR RR AW RW} (hF : Excludes F) {loops : ℤ} {r : T → Mode} {as : List (T × Unit)}
    {tr : List (Event T Mode Print)} {s : St T (Shared S ℤ) (Loc Mode (Acquire AR AW) (Release RR RW) Local)}
    (h : Run (prog F.impl (readerWriter loops)) (start F.impl 0 fun t => begin (r t)) as tr s) :
    Inv loops.toNat tr s := by
  induction h with
  | nil =>
    refine ⟨fun t => ⟨rfl, Nat.zero_le _⟩, ?_, ?_, ?_, ?_, ?_⟩
    · intro t
      simp only [start, begin]
      cases r t <;> trivial
    · have h0 : total (fun l => stored l.client) (start F.impl (0 : ℤ) fun t => begin (r t)).loc = 0 :=
        total_eq_zero fun t => (completed_begin (r t)).1
      rw [h0]; rfl
    · have h0 : total (fun l => printed l.client) (start F.impl (0 : ℤ) fun t => begin (r t)).loc = 0 :=
        total_eq_zero fun t => (completed_begin (r t)).2.1
      rw [h0]; rfl
    · have h0 : total (fun l => completed l.client) (start F.impl (0 : ℤ) fun t => begin (r t)).loc = 0 :=
        total_eq_zero fun t => (completed_begin (r t)).2.2
      rw [h0]; rfl
    · intro pre t v post he
      cases pre <;> cases he
  | snoc h hs ih => exact inv_step ih (hF _ _ _ h) hs

omit [Fintype T] in
/-- a thread keeps its role -/
theorem run_role {F : RwFunctions S AR RR AW RW} {loops : ℤ} {r : T → Mode} {as : List (T × Unit)}
    {tr : List (Event T Mode Print)} {s : St T (Shared S ℤ) (Loc Mode (Acquire AR AW) (Release RR RW) Local)}
    (h : Run (prog F.impl (readerWriter loops)) (start F.impl 0 fun t => begin (r t)) as tr s) (u : T) :
    (s.loc u).client.role = r u := by
  refine h.inv (I := fun s => (s.loc u).client.role = r u) rfl ?_
  intro s t c sh l es hi hs
  by_cases hu : u = t
  · subst hu
    rw [St.move_loc, Function.update_self, ← hi]
    have hst := prog_step hs
    generalize s.sh = x0 at hst
    generalize s.loc u = l0 at hst
    cases hst with
    | call hn =>
      simp only [readerWriter] at hn
      split_ifs at hn
      cases hn
      rfl
    | body hb =>
      simp only [readerWriter] at hb
      split at hb <;> cases hb <;> rfl
    | _ => rfl
  · rw [St.move_loc, Function.update_of_ne hu]
    exact hi

omit [Fintype T] [DecidableEq T] in
/-- a thread that has finished has made all its iterations -/
theorem finished_counts {n : ℕ} {loops : ℤ} {s : St T (Shared S ℤ) (Loc Mode (Acquire AR AW) (Release RR RW) Local)}
    {t : T} (h : Fits n (s.loc t)) (hn : loops.toNat = n) (hf : Finished (readerWriter loops) s t) :
    stored (s.loc t).client = (if (s.loc t).client.role = .write then n else 0) ∧
    printed (s.loc t).client = if (s.loc t).client.role = .write then n else 0 := by
  obtain ⟨h1, h2⟩ := hf
  simp only [Fits, h1] at h
  simp only [readerWriter] at h2
  split_ifs at h2 with h3
  obtain rfl : (s.loc t).client.i = n := by omega
  unfold stored printed completed
  rw [h.1]
  cases (s.loc t).client.role <;> exact ⟨rfl, rfl⟩

/-- each of the writers counts `n` -/
theorem total_writers {L : Type} {numReaders numWriters n : ℕ} {w : L → ℕ} {loc : Fin numReaders ⊕ Fin numWriters → L}
    (h : ∀ t, w (loc t) = if role t = .write then n else 0) : total w loc = numWriters * n := by
  simp only [total, h, Fintype.sum_sum_type, role]
  simp

section Finished

variable {numReaders numWriters : ℕ} {F : RwFunctions S AR RR AW RW} {loops : ℤ}
  {as : List ((Fin numReaders ⊕ Fin numWriters) × Unit)}
  {tr : List (Event (Fin numReaders ⊕ Fin numWriters) Mode Print)}
  {s : St (Fin numReaders ⊕ Fin numWriters) (Shared S ℤ) (Loc Mode (Acquire AR AW) (Release RR RW) Local)}

/-- the final value, and the writers' output -/
theorem finished_value (hF : Excludes F)
    (h : Run (prog F.impl (readerWriter loops)) (start F.impl 0 fun t => begin (role t)) as tr s)
    (hfin : ∀ t, Finished (readerWriter loops) s t) :
    s.sh.data = numWriters * max loops 0 ∧ writes tr = oneTo (numWriters * loops.toNat) := by
  have hi := run_inv hF h
  have hc : ∀ t, _ := fun t => finished_counts (hi.fits t) rfl (hfin t)
  simp only [run_role h] at hc
  refine ⟨?_, ?_⟩
  · have htot := total_writers (w := fun l : Loc Mode _ _ Local => stored l.client) fun t => (hc t).1
    rw [hi.value, htot, Nat.cast_mul, Int.toNat_eq_max]
  · have htot := total_writers (w := fun l : Loc Mode _ _ Local => printed l.client) fun t => (hc t).2
    rw [hi.written, htot]

end Finished

end OsPractice.ReaderWriterLoops
