/-
Processes that `fork`, `wait`, `exec` and exit. Library: nothing here names a program.

A program is the tree of what it does: `fork` has a branch for the child and one for the parent. What a process prints
goes into its buffer, of which a child has a copy; with a terminal each line is written at once. `exit` writes what is
in the buffer; `_exit` and `exec` drop it. A process waits for any of its children that have ended, and fails to if it
has none that it has not waited for. `fork` and `exec` succeed.

A process is named by the numbers of the forks that it comes from, the last one first. The table of the processes is in
the order of their creation.

Results:
- `run_size`, `run_forks`: how many steps there are, and how many processes;
- `progress`: while a process has not ended, one can take a step;
- `run_completes`: every run can be taken to its end.
-/
import OsPractice.Core.Interleave

namespace OsPractice.Processes

open Interleave

abbrev Name := List ℕ

/-- what a process knows -/
structure Ids where
  pid : Name
  /-- what `fork` has returned, 0 in the child -/
  rc : Option Name
  /-- what `wait` has returned, if that is a process -/
  rcWait : Option Name
  deriving DecidableEq, Repr

/-- a program; `line` is a call of `printf` -/
inductive Code (O : Type) where
  | print (line : Ids → O) (k : Code O)
  | fork (child parent : Code O)
  | wait (k : Code O)
  | exec (program : Code O)
  | exit
  | exitNow

/-- a process without its program -/
structure Ctx (O : Type) where
  ids : Ids
  /-- the children so far -/
  forks : ℕ
  /-- those that have not been waited for -/
  kids : List Name
  buf : List O

/-- a process; it has ended if it has no program -/
structure Proc (O : Type) where
  ctx : Ctx O
  code : Option (Code O)

variable {O : Type}

def Ctx.start : Ctx O := ⟨⟨[], none, none⟩, 0, [], []⟩

def Proc.pid (p : Proc O) : Name := p.ctx.ids.pid

/-- the name of the next child -/
def Ctx.next (x : Ctx O) : Name := x.forks :: x.ids.pid

def Ctx.child (x : Ctx O) : Ctx O := ⟨⟨x.next, none, x.ids.rcWait⟩, 0, [], x.buf⟩

def Ctx.forked (x : Ctx O) : Ctx O :=
  { x with ids := { x.ids with rc := some x.next }, forks := x.forks + 1, kids := x.next :: x.kids }

/-- `wait` has returned `n` -/
def Ctx.waited (x : Ctx O) : Option Name → Ctx O
  | none => { x with ids := { x.ids with rcWait := none } }
  | some n => { x with ids := { x.ids with rcWait := some n }, kids := x.kids.erase n }

/-- another program -/
def Ctx.exec (x : Ctx O) : Ctx O := { x with ids := ⟨x.ids.pid, none, none⟩, buf := [] }

/-- the process after a `printf`, and what is written -/
def Ctx.print (tty : Bool) (line : Ids → O) (x : Ctx O) : Ctx O × List (List O) :=
  if tty then (x, [[line x.ids]]) else ({ x with buf := x.buf ++ [line x.ids] }, [])

@[simp] theorem Ctx.print_ids (tty : Bool) (line : Ids → O) (x : Ctx O) : (x.print tty line).1.ids = x.ids := by
  cases tty <;> rfl

@[simp] theorem Ctx.print_forks (tty : Bool) (line : Ids → O) (x : Ctx O) : (x.print tty line).1.forks = x.forks := by
  cases tty <;> rfl

@[simp] theorem Ctx.print_kids (tty : Bool) (line : Ids → O) (x : Ctx O) : (x.print tty line).1.kids = x.kids := by
  cases tty <;> rfl

/-- what is written at the end -/
def Ctx.flush (x : Ctx O) : List (List O) := if x.buf = [] then [] else [x.buf]

/-- a step of one process: what becomes of it, the new processes and what is written. `ended n` says whether the process
`n` has ended; `c` is for `wait` -/
def Proc.step (tty : Bool) (ended : Name → Bool) (c : Option Name) (p : Proc O) :
    Option (Proc O × List (Proc O) × List (List O)) :=
  match p.code with
  | none => none
  | some (.print line k) => some (⟨(p.ctx.print tty line).1, some k⟩, [], (p.ctx.print tty line).2)
  | some (.fork child parent) => some (⟨p.ctx.forked, some parent⟩, [⟨p.ctx.child, some child⟩], [])
  | some (.wait k) =>
    match c with
    | none => if p.ctx.kids = [] then some (⟨p.ctx.waited none, some k⟩, [], []) else none
    | some n => if n ∈ p.ctx.kids ∧ ended n then some (⟨p.ctx.waited (some n), some k⟩, [], []) else none
  | some (.exec program) => some (⟨p.ctx.exec, some program⟩, [], [])
  | some .exit => some (⟨p.ctx, none⟩, [], p.ctx.flush)
  | some .exitNow => some (⟨p.ctx, none⟩, [], [])

def ended (procs : List (Proc O)) (n : Name) : Bool := procs.all fun p => p.pid ≠ n || p.code.isNone

/-- all processes; the thread is the place in the table -/
def step (tty : Bool) : Prog ℕ (Option Name) (List (Proc O)) Unit (List O) := fun i c procs _ =>
  (procs[i]?.bind (Proc.step tty (ended procs) c)).map fun r => (procs.set i r.1 ++ r.2.1, (), r.2.2)

def start (code : Code O) : St ℕ (List (Proc O)) Unit := ⟨[⟨.start, some code⟩], fun _ => ()⟩

def AllEnded (procs : List (Proc O)) : Prop := ∀ p ∈ procs, p.code.isNone

instance (procs : List (Proc O)) : Decidable (AllEnded procs) := inferInstanceAs (Decidable (∀ p ∈ procs, _))

/-! ## Steps -/

/-- the steps of a process -/
inductive Moves (tty : Bool) (ended : Name → Bool) :
    Proc O → Proc O → List (Proc O) → List (List O) → Prop where
  | print (x : Ctx O) (line : Ids → O) (k : Code O) :
      Moves tty ended ⟨x, some (.print line k)⟩ ⟨(x.print tty line).1, some k⟩ [] (x.print tty line).2
  | fork (x : Ctx O) (child parent : Code O) :
      Moves tty ended ⟨x, some (.fork child parent)⟩ ⟨x.forked, some parent⟩ [⟨x.child, some child⟩] []
  | alone {x : Ctx O} (hx : x.kids = []) (k : Code O) :
      Moves tty ended ⟨x, some (.wait k)⟩ ⟨x.waited none, some k⟩ [] []
  | wait {x : Ctx O} {n : Name} (hn : n ∈ x.kids) (hended : ended n = true) (k : Code O) :
      Moves tty ended ⟨x, some (.wait k)⟩ ⟨x.waited (some n), some k⟩ [] []
  | exec (x : Ctx O) (program : Code O) : Moves tty ended ⟨x, some (.exec program)⟩ ⟨x.exec, some program⟩ [] []
  | exit (x : Ctx O) : Moves tty ended ⟨x, some .exit⟩ ⟨x, none⟩ [] x.flush
  | exitNow (x : Ctx O) : Moves tty ended ⟨x, some .exitNow⟩ ⟨x, none⟩ [] []

variable {tty : Bool} {done : Name → Bool} {c : Option Name} {p p' : Proc O} {new procs procs' : List (Proc O)}
  {w : List (List O)} {i : ℕ} {code : Code O}

theorem Proc.step_moves (h : p.step tty done c = some (p', new, w)) : Moves tty done p p' new w := by
  obtain ⟨x, code⟩ := p
  cases code with
  | none => cases h
  | some code =>
    cases code with
    | print line k => cases h; exact .print x line k
    | fork child parent => cases h; exact .fork x child parent
    | wait k =>
      cases c with
      | none =>
        simp only [Proc.step] at h
        split_ifs at h with hx
        cases h
        exact .alone hx k
      | some n =>
        simp only [Proc.step] at h
        split_ifs at h with hn
        cases h
        exact .wait hn.1 hn.2 k
    | exec program => cases h; exact .exec x program
    | exit => cases h; exact .exit x
    | exitNow => cases h; exact .exitNow x

/-- a step of the table is one of its processes -/
theorem step_split (h : step tty i c procs () = some (procs', (), w)) :
    ∃ pre p post p' new, procs = pre ++ p :: post ∧ procs' = pre ++ p' :: (post ++ new) ∧
      Moves tty (ended procs) p p' new w := by
  obtain ⟨⟨p', new, w'⟩, hstep, he⟩ := Option.map_eq_some_iff.1 h
  obtain ⟨p, hp, hstep⟩ := Option.bind_eq_some_iff.1 hstep
  cases he
  obtain ⟨hi, rfl⟩ := List.getElem?_eq_some_iff.1 hp
  refine ⟨procs.take i, procs[i], procs.drop (i + 1), p', new, ?_, ?_, Proc.step_moves hstep⟩
  · rw [List.cons_getElem_drop_succ, List.take_append_drop]
  · rw [List.set_eq_take_append_cons_drop, if_pos hi, List.append_assoc, List.cons_append]

/-! ## How many steps there are -/

def Code.size : Code O → ℕ
  | .print _ k => k.size + 1
  | .fork child parent => child.size + parent.size + 1
  | .wait k => k.size + 1
  | .exec program => program.size + 1
  | .exit => 1
  | .exitNow => 1

def Code.forks : Code O → ℕ
  | .print _ k => k.forks
  | .fork child parent => child.forks + parent.forks + 1
  | .wait k => k.forks
  | .exec program => program.forks
  | .exit => 0
  | .exitNow => 0

/-- a sum over the programs that are left -/
def total (f : Code O → ℕ) (procs : List (Proc O)) : ℕ := (procs.map fun p => (p.code.map f).getD 0).sum

theorem Moves.total_size (h : Moves tty done p p' new w) :
    total Code.size [p] = total Code.size [p'] + total Code.size new + 1 := by
  cases h with
  | fork x child parent => simp [total, Code.size]; omega
  | print | alone | wait | exec => simp [total, Code.size]
  | exit | exitNow => simp [total, Code.size]

theorem Moves.total_forks (h : Moves tty done p p' new w) :
    total Code.forks [p] = total Code.forks [p'] + total Code.forks new + new.length := by
  cases h with
  | fork x child parent => simp [total, Code.forks]; omega
  | print | alone | wait | exec | exit | exitNow => simp [total, Code.forks]

theorem step_total (h : step tty i c procs () = some (procs', (), w)) :
    total Code.size procs = total Code.size procs' + 1 ∧
      procs.length + total Code.forks procs = procs'.length + total Code.forks procs' := by
  obtain ⟨pre, p, post, p', new, rfl, rfl, hm⟩ := step_split h
  have hsize := hm.total_size
  have hforks := hm.total_forks
  simp only [total, List.map_append, List.map_cons, List.map_nil, List.sum_append, List.sum_cons, List.sum_nil,
    List.length_append, List.length_cons] at hsize hforks ⊢
  omega

/-- every step makes the programs smaller by one -/
theorem run_size {as : List (ℕ × Option Name)} {tr : List (List O)} {s : St ℕ (List (Proc O)) Unit}
    (h : Run (step tty) (start code) as tr s) : as.length + total Code.size s.sh = code.size := by
  induction h with
  | nil => simp [start, total]
  | snoc _ hs ih =>
    have htotal := (step_total hs).1
    rw [List.length_append, List.length_singleton, St.move_sh]
    omega

/-- there are as many processes as there have been forks, and one more -/
theorem run_forks {as : List (ℕ × Option Name)} {tr : List (List O)} {s : St ℕ (List (Proc O)) Unit}
    (h : Run (step tty) (start code) as tr s) : s.sh.length + total Code.forks s.sh = code.forks + 1 := by
  induction h with
  | nil => simp [start, total, Nat.add_comm]
  | snoc _ hs ih =>
    have htotal := (step_total hs).2
    rw [St.move_sh]
    omega

theorem total_of_allEnded (f : Code O → ℕ) (h : AllEnded procs) : total f procs = 0 := by
  refine List.sum_eq_zero fun n hn => ?_
  obtain ⟨p, hp, rfl⟩ := List.mem_map.1 hn
  have hcode : p.code = none := by simpa using h p hp
  rw [hcode]
  rfl

theorem Code.size_pos (code : Code O) : 0 < code.size := by
  cases code <;> exact Nat.succ_pos _

theorem allEnded_of_total (h : total Code.size procs = 0) : AllEnded procs := by
  intro p hp
  have hzero := List.sum_eq_zero_iff.1 h _ (List.mem_map_of_mem hp)
  cases hcode : p.code with
  | none => rfl
  | some code =>
    rw [hcode] at hzero
    exact absurd hzero code.size_pos.ne'

/-! ## Progress -/

/-- the names, and the order of the table -/
structure Named (procs : List (Proc O)) : Prop where
  nodup : (procs.map Proc.pid).Nodup
  parent : ∀ q ∈ procs, ∀ m n, q.pid = m :: n → ∃ p ∈ procs, p.pid = n ∧ m < p.ctx.forks
  /-- children come later in the table -/
  later : procs.Pairwise fun q p => q.pid ∉ p.ctx.kids
  self : ∀ p ∈ procs, p.pid ∉ p.ctx.kids

theorem Named.start (code : Code O) : Named [⟨.start, some code⟩] where
  nodup := List.nodup_singleton _
  parent q hq m n hn := by
    rw [List.mem_singleton.1 hq] at hn
    cases hn
  later := List.pairwise_singleton _ _
  self p hp := by
    rw [List.mem_singleton.1 hp]
    exact List.not_mem_nil

/-- the name of the next child is new -/
theorem Named.fresh (h : Named procs) (hp : p ∈ procs) {q : Proc O} (hq : q ∈ procs) : q.pid ≠ p.ctx.next := by
  intro hname
  obtain ⟨r, hr, hpid, hlt⟩ := h.parent q hq _ _ hname
  obtain rfl : r = p := List.inj_on_of_nodup_map h.nodup hr hp hpid
  exact lt_irrefl _ hlt

/-- what a step does to the names -/
theorem Moves.names (h : Moves tty done p p' new w) :
    p'.pid = p.pid ∧ p.ctx.forks ≤ p'.ctx.forks ∧ (∀ n ∈ p'.ctx.kids, n ∈ p.ctx.kids ∨ n = p.ctx.next) ∧
      (new = [] ∨ ∃ q, new = [q] ∧ q.pid = p.ctx.next ∧ q.ctx.kids = [] ∧ p.ctx.forks < p'.ctx.forks) := by
  cases h with
  | print x line k => exact ⟨by simp [Proc.pid], by simp, fun n hn => .inl (by simpa using hn), .inl rfl⟩
  | fork x child parent =>
    refine ⟨rfl, Nat.le_succ _, ?_, .inr ⟨_, rfl, rfl, rfl, Nat.lt_succ_self _⟩⟩
    intro n hn
    exact (List.mem_cons.1 hn).symm
  | wait hn hended k => exact ⟨rfl, le_rfl, fun n hn => .inl (List.mem_of_mem_erase hn), .inl rfl⟩
  | alone | exec | exit | exitNow => exact ⟨rfl, le_rfl, fun n hn => .inl hn, .inl rfl⟩

theorem Named.step {pre post : List (Proc O)} (h : Named (pre ++ p :: post)) (hm : Moves tty done p p' new w) :
    Named (pre ++ p' :: (post ++ new)) := by
  obtain ⟨hpid, hforks, hkids, hnew⟩ := hm.names
  have hp : p ∈ pre ++ p :: post := by simp
  have hfresh : ∀ q ∈ pre ++ p :: post, q.pid ≠ p.ctx.next := fun q hq => h.fresh hp hq
  have hkeep : ∀ r ∈ pre ++ p :: post, ∃ r' ∈ pre ++ p' :: (post ++ new),
      r'.pid = r.pid ∧ r.ctx.forks ≤ r'.ctx.forks := by
    intro r hr
    rcases List.mem_append.1 hr with hr | hr
    · exact ⟨r, by simp [hr], rfl, le_rfl⟩
    · rcases List.mem_cons.1 hr with rfl | hr
      · exact ⟨p', by simp, hpid, hforks⟩
      · exact ⟨r, by simp [hr], rfl, le_rfl⟩
  -- a process of the new table has a name of the old one, or is the new child
  have hold : ∀ q ∈ pre ++ p' :: (post ++ new), (∃ r ∈ pre ++ p :: post, r.pid = q.pid) ∨
      q.pid = p.ctx.next ∧ p.ctx.forks < p'.ctx.forks := by
    intro q hq
    simp only [List.mem_append, List.mem_cons] at hq
    rcases hq with hq | rfl | hq | hq
    · exact .inl ⟨q, by simp [hq], rfl⟩
    · exact .inl ⟨p, hp, hpid.symm⟩
    · exact .inl ⟨q, by simp [hq], rfl⟩
    · rcases hnew with rfl | ⟨r, rfl, hr, -, hlt⟩
      · cases hq
      · rw [List.mem_singleton.1 hq]
        exact .inr ⟨hr, hlt⟩
  refine ⟨?_, ?_, ?_, ?_⟩
  · have hmap : (pre ++ p' :: (post ++ new)).map Proc.pid = (pre ++ p :: post).map Proc.pid ++ new.map Proc.pid := by
      simp [hpid]
    rw [hmap]
    refine List.nodup_append.2 ⟨h.nodup, ?_, ?_⟩
    · rcases hnew with rfl | ⟨r, rfl, -⟩
      · exact List.nodup_nil
      · exact List.nodup_singleton _
    · intro a ha b hb hab
      obtain ⟨q, hq, rfl⟩ := List.mem_map.1 ha
      rcases hnew with rfl | ⟨r, rfl, hr, -⟩
      · cases hb
      · rw [List.mem_singleton.1 hb, hr] at hab
        exact hfresh q hq hab
  · intro q hq m n hname
    rcases hold q hq with ⟨r, hr, hrq⟩ | ⟨hqname, hlt⟩
    · obtain ⟨s, hs, hsn, hlt⟩ := h.parent r hr m n (hrq.trans hname)
      obtain ⟨s', hs', hpid', hle⟩ := hkeep s hs
      exact ⟨s', hs', hpid'.trans hsn, hlt.trans_le hle⟩
    · obtain ⟨rfl, rfl⟩ := List.cons.inj (hqname.symm.trans hname)
      exact ⟨p', by simp, hpid, hlt⟩
  · have hlater := h.later
    simp only [List.pairwise_append, List.pairwise_cons, List.mem_append, List.mem_cons] at hlater ⊢
    obtain ⟨hpre, ⟨hpost, hpairs⟩, hcross⟩ := hlater
    have hkids' : ∀ q ∈ pre ++ p :: post, q.pid ∉ p.ctx.kids → q.pid ∉ p'.ctx.kids := fun q hq hnot hmem =>
      (hkids _ hmem).elim hnot (hfresh q hq)
    have hnone : ∀ r ∈ new, r.ctx.kids = [] := by
      intro r hr
      rcases hnew with rfl | ⟨s, rfl, -, hs, -⟩
      · cases hr
      · rw [List.mem_singleton.1 hr, hs]
    refine ⟨hpre, ⟨?_, hpairs, ?_, ?_⟩, ?_⟩
    · intro q hq
      rw [hpid]
      rcases hq with hq | hq
      · exact hpost q hq
      · rw [hnone q hq]
        exact List.not_mem_nil
    · rcases hnew with rfl | ⟨s, rfl, -⟩
      · exact List.Pairwise.nil
      · exact List.pairwise_singleton _ _
    · intro q _ r hr
      rw [hnone r hr]
      exact List.not_mem_nil
    · intro q hq r hr
      rcases hr with rfl | hr | hr
      · exact hkids' q (by simp [hq]) (hcross q hq p (.inl rfl))
      · exact hcross q hq r (.inr hr)
      · rw [hnone r hr]
        exact List.not_mem_nil
  · intro q hq
    simp only [List.mem_append, List.mem_cons] at hq
    rcases hq with hq | rfl | hq | hq
    · exact h.self q (by simp [hq])
    · intro hmem
      rw [hpid] at hmem
      exact (hkids _ hmem).elim (h.self p hp) (hfresh p hp)
    · exact h.self q (by simp [hq])
    · rcases hnew with rfl | ⟨s, rfl, -, hs, -⟩
      · cases hq
      · rw [List.mem_singleton.1 hq, hs]
        exact List.not_mem_nil

theorem run_named {as : List (ℕ × Option Name)} {tr : List (List O)} {s : St ℕ (List (Proc O)) Unit}
    (h : Run (step tty) (start code) as tr s) : Named s.sh := by
  refine h.inv (I := fun s => Named s.sh) (Named.start code) fun s i c procs _ w hs hstep => ?_
  obtain ⟨pre, p, post, p', new, hsplit, rfl, hm⟩ := step_split hstep
  rw [hsplit] at hs
  exact hs.step hm

/-- the last process that has not ended -/
theorem exists_last (h : ¬ AllEnded procs) :
    ∃ pre p post, procs = pre ++ p :: post ∧ p.code.isNone = false ∧ AllEnded post := by
  induction procs with
  | nil => exact absurd (fun p hp => by cases hp) h
  | cons q procs ih =>
    by_cases hprocs : AllEnded procs
    · refine ⟨[], q, procs, rfl, ?_, hprocs⟩
      by_contra hq
      exact h (List.forall_mem_cons.2 ⟨by simpa using hq, hprocs⟩)
    · obtain ⟨pre, p, post, rfl, hp⟩ := ih hprocs
      exact ⟨q :: pre, p, post, rfl, hp⟩

/-- **Progress.** The last process that has not ended is not blocked: its children come later. -/
theorem progress (tty : Bool) (h : Named procs) (hlive : ¬ AllEnded procs) : ∃ i c, (step tty i c procs ()).isSome := by
  obtain ⟨pre, ⟨x, code⟩, post, rfl, hp, hpost⟩ := exists_last hlive
  have hget : (pre ++ ⟨x, code⟩ :: post)[pre.length]? = some ⟨x, code⟩ := by simp
  suffices hstep : ∃ c, (Proc.step tty (ended (pre ++ ⟨x, code⟩ :: post)) c ⟨x, code⟩).isSome by
    obtain ⟨c, hc⟩ := hstep
    exact ⟨pre.length, c, by simpa [step, hget] using hc⟩
  cases code with
  | none => cases hp
  | some code =>
    cases code with
    | wait k =>
      cases hkids : x.kids with
      | nil => exact ⟨none, by simp [Proc.step, hkids]⟩
      | cons n kids =>
        have hended : ended (pre ++ ⟨x, some (.wait k)⟩ :: post) n = true := by
          refine List.all_eq_true.2 fun q hq => ?_
          have hn : n ∈ x.kids := by simp [hkids]
          simp only [Bool.or_eq_true, decide_eq_true_eq]
          by_cases hname : q.pid = n
          · refine .inr ?_
            rcases List.mem_append.1 hq with hq | hq
            · have hlater := (List.pairwise_append.1 h.later).2.2 q hq _ List.mem_cons_self
              exact absurd (hname ▸ hn) hlater
            · rcases List.mem_cons.1 hq with rfl | hq
              · exact absurd (hname ▸ hn) (h.self _ (by simp))
              · exact hpost q hq
          · exact .inl hname
        exact ⟨some n, by simp [Proc.step, hkids, hended]⟩
    | print | fork | exec | exit | exitNow => exact ⟨none, rfl⟩

/-- **A run can be taken to its end.** -/
theorem run_completes {as : List (ℕ × Option Name)} {tr : List (List O)} {s : St ℕ (List (Proc O)) Unit}
    (h : Run (step tty) (start code) as tr s) :
    ∃ bs tr' s', Run (step tty) (start code) (as ++ bs) (tr ++ tr') s' ∧ AllEnded s'.sh := by
  induction hn : total Code.size s.sh generalizing as tr s with
  | zero => exact ⟨[], [], s, by simpa using h, allEnded_of_total hn⟩
  | succ n ih =>
    by_cases hlive : AllEnded s.sh
    · exact ⟨[], [], s, by simpa using h, hlive⟩
    · obtain ⟨i, c, hstep⟩ := progress tty (run_named h) hlive
      obtain ⟨⟨procs, _, w⟩, hstep⟩ := Option.isSome_iff_exists.1 hstep
      have htotal := (step_total hstep).1
      obtain ⟨bs, tr', s', hrun, hend⟩ := ih (h.snoc hstep) (by rw [St.move_sh]; omega)
      exact ⟨(i, c) :: bs, w ++ tr', s', by simpa using hrun, hend⟩

end OsPractice.Processes
