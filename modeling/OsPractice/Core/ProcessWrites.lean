/-
What processes write that `fork`, `wait`, `exec` and exit. Library: nothing here names a program.

`Code.writes` goes through the program as if each child ran to its end at the `fork`. That is the order if the parent
waits for the child before it does anything else; in every order the same is written, as long as nobody waits who may
choose between children.

Results:
- `run_writes_perm`: what is written, up to the order;
- `run_writes_eq`: a program whose parents wait at once writes it in this order;
- `outputs_sequential`, `head_of_mem_outputs`: all that such a program can write, and the first line on a terminal.
-/
import OsPractice.Core.Processes

namespace OsPractice.Processes

open Interleave

variable {O : Type}

/-- the writes of a program and of the processes that it forks -/
def Code.writes (tty : Bool) : Code O → Ctx O → List (List O)
  | .print line k, x => (x.print tty line).2 ++ k.writes tty (x.print tty line).1
  | .fork child parent, x => child.writes tty x.child ++ parent.writes tty x.forked
  | .wait k, x => k.writes tty (x.waited x.kids.head?)
  | .exec program, x => program.writes tty x.exec
  | .exit, x => x.flush
  | .exitNow, _ => []

def Proc.writes (tty : Bool) (p : Proc O) : List (List O) := (p.code.map fun code => code.writes tty p.ctx).getD []

/-- no process waits that has two children which have not been waited for; `n` is how many it has -/
def Code.oneKid : ℕ → Code O → Bool
  | n, .print _ k => k.oneKid n
  | n, .fork child parent => child.oneKid 0 && parent.oneKid (n + 1)
  | n, .wait k => n ≤ 1 && k.oneKid (n - 1)
  | n, .exec program => program.oneKid n
  | _, .exit => true
  | _, .exitNow => true

def Proc.OneKid (p : Proc O) : Prop := ∀ code, p.code = some code → code.oneKid p.ctx.kids.length = true

/-- a parent waits for its child before it does anything else -/
def Code.sequential : Code O → Bool
  | .print _ k => k.sequential
  | .fork child (.wait k) => child.sequential && k.sequential
  | .fork _ _ => false
  | .wait _ => false
  | .exec program => program.sequential
  | .exit => true
  | .exitNow => true

variable {tty : Bool} {done : Name → Bool} {c : Option Name} {p p' : Proc O} {new pre post procs procs' : List (Proc O)}
  {w : List (List O)} {i : ℕ} {code : Code O} {n : Name}

/-! ## One step -/

@[simp] theorem oneKid_some (x : Ctx O) (code : Code O) :
    Proc.OneKid ⟨x, some code⟩ ↔ code.oneKid x.kids.length = true :=
  ⟨fun h => h code rfl, fun h _ hcode => Option.some.inj hcode ▸ h⟩

@[simp] theorem oneKid_none (x : Ctx O) : Proc.OneKid ⟨x, none⟩ := fun _ hcode => by cases hcode

theorem Moves.oneKid (h : Moves tty done p p' new w) (hp : p.OneKid) : p'.OneKid ∧ ∀ q ∈ new, q.OneKid := by
  cases h with
  | print x line k => simpa [Code.oneKid] using hp
  | fork x child parent =>
    obtain ⟨hchild, hparent⟩ := Bool.and_eq_true_iff.1 ((oneKid_some x _).1 hp)
    simpa [Ctx.child, Ctx.forked] using ⟨hparent, hchild⟩
  | alone hx k =>
    obtain ⟨-, hk⟩ := Bool.and_eq_true_iff.1 ((oneKid_some _ _).1 hp)
    simpa [Ctx.waited, hx] using hk
  | wait hn hended k =>
    obtain ⟨-, hk⟩ := Bool.and_eq_true_iff.1 ((oneKid_some _ _).1 hp)
    simpa [Ctx.waited, List.length_erase_of_mem hn] using hk
  | exec x program => exact ⟨(oneKid_some x.exec program).2 ((oneKid_some x (.exec program)).1 hp), by simp⟩
  | exit | exitNow => simp

theorem Moves.writes (h : Moves tty done p p' new w) (hp : p.OneKid) :
    p.writes tty = w ++ (new.flatMap (Proc.writes tty) ++ p'.writes tty) := by
  cases h with
  | print x line k => rfl
  | fork x child parent => simp [Proc.writes, Code.writes]
  | alone hx k => simp [Proc.writes, Code.writes, hx]
  | @wait x n hn hended k =>
    obtain ⟨hlen, -⟩ := Bool.and_eq_true_iff.1 ((oneKid_some x _).1 hp)
    have hkids : x.kids = [n] := by
      cases hx : x.kids with
      | nil => rw [hx] at hn; cases hn
      | cons m kids =>
        rw [hx] at hn hlen
        obtain rfl : kids = [] := by simpa using hlen
        rw [List.mem_singleton.1 hn]
    simp [Proc.writes, Code.writes, hkids]
  | exec x program => rfl
  | exit x => simp [Proc.writes, Code.writes]
  | exitNow x => rfl

/-! ## Up to the order -/

theorem OneKid.step (hall : ∀ q ∈ pre ++ p :: post, q.OneKid) (h : Moves tty done p p' new w) :
    ∀ q ∈ pre ++ p' :: (post ++ new), q.OneKid := by
  obtain ⟨hp', hnew⟩ := h.oneKid (hall p (by simp))
  intro q hq
  simp only [List.mem_append, List.mem_cons] at hq
  rcases hq with hq | rfl | hq | hq
  · exact hall q (by simp [hq])
  · exact hp'
  · exact hall q (by simp [hq])
  · exact hnew q hq

/-- **What is written.** -/
theorem run_writes_perm {as : List (ℕ × Option Name)} {tr : List (List O)} {s : St ℕ (List (Proc O)) Unit}
    (h : Run (step tty) (start code) as tr s) (hcode : code.oneKid 0 = true) :
    (∀ q ∈ s.sh, q.OneKid) ∧ (tr ++ s.sh.flatMap (Proc.writes tty)).Perm (code.writes tty .start) := by
  induction h with
  | nil => exact ⟨by simpa [start, Ctx.start] using hcode, by simp [start, Proc.writes]⟩
  | @snoc _ tr s _ i c _ _ w hstep ih =>
    obtain ⟨hall, hperm⟩ := ih
    obtain ⟨pre, p, post, p', new, hsplit, hsh, hm⟩ := step_split hstep
    rw [hsplit] at hall hperm
    rw [St.move_sh, hsh]
    refine ⟨OneKid.step hall hm, List.Perm.trans ?_ hperm⟩
    rw [List.append_assoc]
    refine List.Perm.append_left tr ?_
    rw [List.flatMap_append, List.flatMap_cons, List.flatMap_append, List.flatMap_append, List.flatMap_cons,
      hm.writes (hall p (by simp))]
    rw [← Multiset.coe_eq_coe]
    simp only [← Multiset.coe_add]
    abel

/-! ## In order -/

/-- the processes that have not ended wait for one another, the later ones being called: `n` is the first of them -/
def Frames : Name → List (Proc O) → Prop
  | _, [] => True
  | n, ⟨_, none⟩ :: procs => Frames n procs
  | n, ⟨x, some code⟩ :: procs =>
    x.ids.pid = n ∧ ((code.sequential = true ∧ x.kids = [] ∧ AllEnded procs) ∨
      ∃ k kid, code = .wait k ∧ k.sequential = true ∧ x.kids = [kid] ∧ Frames kid procs)

theorem frames_of_allEnded (n : Name) (h : AllEnded procs) : Frames n procs := by
  induction procs with
  | nil => trivial
  | cons p procs ih =>
    obtain ⟨hp, hprocs⟩ := List.forall_mem_cons.1 h
    obtain ⟨x, code⟩ := p
    cases code with
    | none => exact ih hprocs
    | some code => cases hp

theorem frames_append {x : Ctx O} (h : AllEnded procs) (hcode : code.sequential = true) (hx : x.kids = []) :
    Frames x.ids.pid (procs ++ [⟨x, some code⟩]) := by
  induction procs with
  | nil => exact ⟨rfl, .inl ⟨hcode, hx, fun p hp => by cases hp⟩⟩
  | cons p procs ih =>
    obtain ⟨hp, hprocs⟩ := List.forall_mem_cons.1 h
    obtain ⟨y, code'⟩ := p
    cases code' with
    | none => exact ih hprocs
    | some code' => cases hp

/-- once the first one has ended, all have -/
theorem Frames.allEnded (h : Frames n procs) (hn : ∀ q ∈ procs, q.pid = n → q.code.isNone = true) : AllEnded procs := by
  induction procs with
  | nil => exact fun p hp => by cases hp
  | cons p procs ih =>
    obtain ⟨hp, hprocs⟩ := List.forall_mem_cons.1 hn
    obtain ⟨x, code⟩ := p
    cases code with
    | none => exact List.forall_mem_cons.2 ⟨rfl, ih h hprocs⟩
    | some code =>
      have hlive := hp h.1
      cases hlive

theorem sequential_fork {child parent : Code O} (h : (Code.fork child parent).sequential = true) :
    ∃ k, parent = .wait k ∧ child.sequential = true ∧ k.sequential = true := by
  cases parent with
  | wait k => exact ⟨k, rfl, Bool.and_eq_true_iff.1 h⟩
  | print | fork | exec | exit | exitNow => cases h

theorem sequential_oneKid (h : code.sequential = true) : code.oneKid 0 = true := by
  induction code using Code.sequential.induct with
  | case1 line k ih => exact ih h
  | case2 child k ihc ihk =>
    obtain ⟨hchild, hk⟩ := Bool.and_eq_true_iff.1 h
    simpa [Code.oneKid] using ⟨ihc hchild, ihk hk⟩
  | case3 child parent hnot =>
    obtain ⟨k, rfl, -⟩ := sequential_fork h
    exact absurd rfl (hnot k)
  | case4 k => cases h
  | case5 program ih => exact ih h
  | case6 => rfl
  | case7 => rfl

theorem Moves.live (h : Moves tty done p p' new w) : p.code.isNone = false := by
  cases h <;> rfl

theorem Moves.new_reverse (h : Moves tty done p p' new w) : new.reverse = new := by
  cases h <;> rfl

/-- a step of the first process: the others have ended -/
theorem Frames.top (h : Frames n (p :: post)) (hm : Moves tty done p p' new w)
    (hdone : ∀ m, done m = true → ∀ q ∈ post, q.pid = m → q.code.isNone = true) :
    AllEnded post ∧ p.OneKid ∧ Frames n (p' :: (post ++ new)) := by
  cases hm with
  | print x line k =>
    obtain ⟨hpid, ⟨hcode, hkids, hpost⟩ | ⟨_, _, hwait, -⟩⟩ := h
    · refine ⟨hpost, (oneKid_some _ _).2 ?_, by simpa using hpid,
        .inl ⟨hcode, by simpa using hkids, by simpa using hpost⟩⟩
      simpa [hkids] using sequential_oneKid hcode
    · cases hwait
  | fork x child parent =>
    obtain ⟨hpid, ⟨hcode, hkids, hpost⟩ | ⟨_, _, hwait, -⟩⟩ := h
    · obtain ⟨k, rfl, hchild, hk⟩ := sequential_fork hcode
      refine ⟨hpost, (oneKid_some _ _).2 ?_, hpid, .inr ⟨k, x.next, rfl, hk, by simp [Ctx.forked, hkids], ?_⟩⟩
      · simpa [hkids] using sequential_oneKid hcode
      · exact frames_append (x := x.child) hpost hchild rfl
    · cases hwait
  | alone hx k =>
    obtain ⟨-, ⟨hcode, -⟩ | ⟨_, kid, -, -, hkids, -⟩⟩ := h
    · cases hcode
    · rw [hx] at hkids
      cases hkids
  | @wait x m hm hended k =>
    obtain ⟨hpid, ⟨hcode, -⟩ | ⟨k', kid, hwait, hk, hkids, hrest⟩⟩ := h
    · cases hcode
    · obtain rfl := Code.wait.inj hwait
      rw [hkids] at hm
      obtain rfl := List.mem_singleton.1 hm
      have hpost := hrest.allEnded fun q hq hname => hdone m hended q hq hname
      refine ⟨hpost, (oneKid_some _ _).2 ?_, hpid, .inl ⟨hk, by simp [Ctx.waited, hkids], by simpa using hpost⟩⟩
      simpa [hkids, Code.oneKid] using sequential_oneKid hk
  | exec x program =>
    obtain ⟨hpid, ⟨hcode, hkids, hpost⟩ | ⟨_, _, hwait, -⟩⟩ := h
    · refine ⟨hpost, (oneKid_some _ _).2 ?_, hpid, .inl ⟨hcode, hkids, by simpa using hpost⟩⟩
      simpa [hkids] using sequential_oneKid hcode
    · cases hwait
  | exit x =>
    obtain ⟨hpid, ⟨hcode, hkids, hpost⟩ | ⟨_, _, hwait, -⟩⟩ := h
    · have hframes : Frames n (post ++ []) := frames_of_allEnded n (by simpa using hpost)
      exact ⟨hpost, (oneKid_some _ _).2 rfl, hframes⟩
    · cases hwait
  | exitNow x =>
    obtain ⟨hpid, ⟨hcode, hkids, hpost⟩ | ⟨_, _, hwait, -⟩⟩ := h
    · have hframes : Frames n (post ++ []) := frames_of_allEnded n (by simpa using hpost)
      exact ⟨hpost, (oneKid_some _ _).2 rfl, hframes⟩
    · cases hwait

/-- what is left to write, the last process first -/
def remaining (tty : Bool) (procs : List (Proc O)) : List (List O) := procs.reverse.flatMap (Proc.writes tty)

@[simp] theorem remaining_cons (tty : Bool) (p : Proc O) (procs : List (Proc O)) :
    remaining tty (p :: procs) = remaining tty procs ++ p.writes tty := by
  simp [remaining]

theorem remaining_of_allEnded (h : AllEnded procs) : remaining tty procs = [] := by
  refine List.flatMap_eq_nil_iff.2 fun p hp => ?_
  have hcode : p.code = none := by simpa using h p (List.mem_reverse.1 hp)
  rw [Proc.writes, hcode]
  rfl

theorem Frames.step (h : Frames n (pre ++ p :: post)) (hm : Moves tty done p p' new w)
    (hdone : ∀ m, done m = true → ∀ q ∈ pre ++ p :: post, q.pid = m → q.code.isNone = true) :
    Frames n (pre ++ p' :: (post ++ new)) ∧
      remaining tty (pre ++ p :: post) = w ++ remaining tty (pre ++ p' :: (post ++ new)) := by
  induction pre generalizing n with
  | nil =>
    obtain ⟨hpost, hone, hframes⟩ := h.top hm fun m hdm q hq => hdone m hdm q (by simp [hq])
    refine ⟨hframes, ?_⟩
    have hnew : remaining tty (post ++ new) = new.flatMap (Proc.writes tty) := by
      rw [remaining, List.reverse_append, List.flatMap_append, hm.new_reverse]
      exact (congrArg (_ ++ ·) (remaining_of_allEnded hpost)).trans (List.append_nil _)
    rw [List.nil_append, List.nil_append, remaining_cons, remaining_cons, remaining_of_allEnded hpost, hnew,
      hm.writes hone, List.nil_append]
  | cons q pre ih =>
    have ih := fun m hframes => ih (n := m) hframes fun m hdm r hr => hdone m hdm r (List.mem_cons_of_mem q hr)
    suffices hstep : ∃ m, Frames m (pre ++ p :: post) ∧
        (Frames m (pre ++ p' :: (post ++ new)) → Frames n (q :: (pre ++ p' :: (post ++ new)))) by
      obtain ⟨m, hframes, hback⟩ := hstep
      obtain ⟨hframes', hrem⟩ := ih m hframes
      refine ⟨hback hframes', ?_⟩
      rw [List.cons_append, List.cons_append, remaining_cons, remaining_cons, hrem, List.append_assoc]
    obtain ⟨x, code⟩ := q
    cases code with
    | none => exact ⟨n, h, id⟩
    | some code =>
      obtain ⟨hpid, ⟨-, -, hended⟩ | ⟨k, kid, hwait, hk, hkids, hrest⟩⟩ := h
      · have hlive := hended p (by simp)
        rw [hm.live] at hlive
        cases hlive
      · exact ⟨kid, hrest, fun hrest' => ⟨hpid, .inr ⟨k, kid, hwait, hk, hkids, hrest'⟩⟩⟩

/-- **Calls.** A parent that waits for its child before it does anything else has it do its work as a function would. -/
theorem run_writes_eq {as : List (ℕ × Option Name)} {tr : List (List O)} {s : St ℕ (List (Proc O)) Unit}
    (h : Run (step tty) (start code) as tr s) (hcode : code.sequential = true) :
    Frames [] s.sh ∧ tr ++ remaining tty s.sh = code.writes tty .start := by
  induction h with
  | nil =>
    refine ⟨⟨rfl, .inl ⟨hcode, rfl, fun p hp => by cases hp⟩⟩, ?_⟩
    simp [start, remaining, Proc.writes]
  | @snoc _ tr s _ i c _ _ w hstep ih =>
    obtain ⟨hframes, hrem⟩ := ih
    obtain ⟨pre, p, post, p', new, hsplit, hsh, hm⟩ := step_split hstep
    have hdone : ∀ m, ended s.sh m = true → ∀ q ∈ pre ++ p :: post, q.pid = m → q.code.isNone = true := by
      intro m hended q hq hname
      rw [← hsplit] at hq
      simpa [hname] using List.all_eq_true.1 hended q hq
    rw [hsplit] at hframes hrem
    obtain ⟨hframes', hrem'⟩ := hframes.step hm hdone
    rw [St.move_sh, hsh]
    refine ⟨hframes', ?_⟩
    rw [List.append_assoc, ← hrem', hrem]

/-! ## All that can be written -/

/-- what a program may have written when all processes have ended -/
def Outputs (tty : Bool) (code : Code O) : Set (List (List O)) :=
  { tr | ∃ as s, Run (step tty) (start code) as tr s ∧ AllEnded s.sh }

theorem mem_outputs_of_exec (tty : Bool) (code : Code O) (as : List (ℕ × Option Name)) {tr : List (List O)}
    [DecidableEq O]
    (h : (exec (step tty) (start code) as).any fun r => decide (r.2 = tr ∧ AllEnded r.1.sh)) : tr ∈ Outputs tty code := by
  obtain ⟨s, tr', hrun, rfl, hended⟩ := exec_any_run (step tty) (start code) as (fun s tr' => tr' = tr ∧ AllEnded s.sh) h
  exact ⟨as, s, hrun, hended⟩

theorem perm_of_mem_outputs {tr : List (List O)} (h : tr ∈ Outputs tty code) (hcode : code.oneKid 0 = true) :
    tr.Perm (code.writes tty .start) := by
  obtain ⟨as, s, hrun, hended⟩ := h
  obtain ⟨-, hperm⟩ := run_writes_perm hrun hcode
  have hnil : s.sh.flatMap (Proc.writes tty) = [] := by
    refine List.flatMap_eq_nil_iff.2 fun p hp => ?_
    have hnone : p.code = none := by simpa using hended p hp
    rw [Proc.writes, hnone]
    rfl
  rwa [hnil, List.append_nil] at hperm

theorem outputs_sequential (tty : Bool) (hcode : code.sequential = true) :
    Outputs tty code = {code.writes tty .start} := by
  have hsound : ∀ tr ∈ Outputs tty code, tr = code.writes tty .start := by
    rintro tr ⟨as, s, hrun, hended⟩
    obtain ⟨-, hrem⟩ := run_writes_eq hrun hcode
    rwa [remaining_of_allEnded hended, List.append_nil] at hrem
  obtain ⟨bs, tr, s, hrun, hended⟩ := run_completes (.nil : Run (step tty) (start code) [] [] (start code))
  have hmem : [] ++ tr ∈ Outputs tty code := ⟨_, s, hrun, hended⟩
  refine Set.eq_singleton_iff_unique_mem.2 ⟨?_, hsound⟩
  rw [← hsound _ hmem]
  exact hmem

/-! ## The first line -/

/-- on a terminal the first line is written first: there is one process only -/
theorem run_first {line : Ids → O} {k : Code O} {as : List (ℕ × Option Name)} {tr : List (List O)}
    {s : St ℕ (List (Proc O)) Unit} (h : Run (step true) (start (.print line k)) as tr s) (has : as ≠ []) :
    tr.head? = some [line ⟨[], none, none⟩] := by
  have hinv : (as = [] ∧ tr = [] ∧ s.sh = [⟨.start, some (.print line k)⟩]) ∨
      tr.head? = some [line ⟨[], none, none⟩] := by
    clear has
    induction h with
    | nil => exact .inl ⟨rfl, rfl, rfl⟩
    | @snoc _ tr s _ i c _ _ w hstep ih =>
      refine .inr ?_
      rcases ih with ⟨-, rfl, hs⟩ | hhead
      · rw [hs] at hstep
        cases i with
        | zero => cases hstep; rfl
        | succ i => cases hstep
      · rw [List.head?_append, hhead]
        rfl
  exact hinv.resolve_left fun h => has h.1

theorem head_of_mem_outputs {line : Ids → O} {k : Code O} {tr : List (List O)}
    (h : tr ∈ Outputs true (.print line k)) : tr.head? = some [line ⟨[], none, none⟩] := by
  obtain ⟨as, s, hrun, hended⟩ := h
  refine run_first hrun ?_
  rintro rfl
  have hsize := run_size hrun
  rw [total_of_allEnded _ hended] at hsize
  cases hsize

end OsPractice.Processes
