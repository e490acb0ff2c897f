/-
The programs that show `fork`, `wait` and `exec` (`proc_api/p1.c`, `p2.c`, `p3.c`, `p4.c`, `hw5-1.c` and `hw5-2.c`,
`process-creation/multiple_fork.c`). `p1` does not say in which order its lines appear; `p2` and `p3` do, as the parent
waits. Where standard output is not a terminal, the child has a copy of the line that is still in the buffer, which is
then written twice; in `p3` the child's lines are lost with its buffer.

`fork`, `execvp` and `open` succeed. With `p4` descriptor 0 is open, so that `open` returns 1; `wc` prints one line.
`dprintf` writes at once, and parent and child share the offset.

Results:
- `p1_outputs`: what `p1` and `hw5-1` can print;
- `p2_outputs`: what `p2` and `p3` print, and what `p4` and `hw5-2` put into their files;
- `multiple_fork_processes`: how many processes there are.
-/
import OsPractice.Core.ProcessWrites

namespace OsPractice.ForkPrograms

open Interleave Processes

/-! ## The programs -/

inductive Line where
  /-- `hello world (pid:%d)` -/
  | hello (pid : Name)
  /-- `hello, i'm child (pid:%d)`, in `p3` `hello, I am child (pid:%d)` -/
  | child (pid : Name)
  /-- `hello, i'm parent of %d (pid:%d)` -/
  | parent (rc : Option Name) (pid : Name)
  /-- `hello, i'm parent of %d (rc_wait:%d) (pid:%d)`, in `p3` `hello, i am parent of ...` -/
  | parentWait (rc rcWait : Option Name) (pid : Name)
  /-- `child x is:%d` -/
  | childX (x : ℕ)
  /-- `parent x is:%d` -/
  | parentX (x : ℕ)
  /-- what `wc` prints -/
  | wc
  deriving DecidableEq, Repr

def p1 : Code Line :=
  .print (fun i => .hello i.pid) <|
    .fork (.print (fun i => .child i.pid) .exit) (.print (fun i => .parent i.rc i.pid) .exit)

def p2 : Code Line :=
  .print (fun i => .hello i.pid) <|
    .fork (.print (fun i => .child i.pid) .exit) (.wait <| .print (fun i => .parentWait i.rc i.rcWait i.pid) .exit)

def wc : Code Line := .print (fun _ => .wc) .exit

def p3 : Code Line :=
  .print (fun i => .hello i.pid) <|
    .fork (.print (fun i => .child i.pid) <| .exec wc)
      (.wait <| .print (fun i => .parentWait i.rc i.rcWait i.pid) .exit)

/-- what is written goes into `.p4.output` -/
def p4 : Code Line := .fork (.exec wc) (.wait .exit)

def hw5_1 : Code Line :=
  let x := 100 + 1
  .fork (.print (fun _ => .childX x) .exit) (.print (fun _ => .parentX x) .exit)

def childPrint : List Char := "child print\n".toList

def parentPrint : List Char := "parent print\n".toList

/-- what is written goes into `output.txt` -/
def hw5_2 : Code (List Char) := .fork (.print (fun _ => childPrint) .exit) (.wait <| .print (fun _ => parentPrint) .exit)

/-- a file after a text has been written over its beginning -/
def overwrite (old text : List Char) : List Char := text ++ old.drop text.length

/-- `n` calls of `fork` -/
def forks : ℕ → Code Empty
  | 0 => .exit
  | n + 1 => .fork (forks n) (forks n)

def multiple_fork : Code Empty := forks 3

/-! ## Printing beside the child -/

theorem perm_pair {α : Type} {a b : α} {l : List α} (h : l.Perm [a, b]) : l = [a, b] ∨ l = [b, a] := by
  obtain ⟨x, y, rfl⟩ := List.length_eq_two.1 h.length_eq
  rcases List.mem_pair.1 (h.subset List.mem_cons_self) with rfl | rfl
  · exact .inl (congrArg _ (List.perm_singleton.1 ((List.perm_cons _).1 h)))
  · exact .inr (congrArg _ (List.perm_singleton.1 ((List.perm_cons _).1 (h.trans (List.Perm.swap _ _ _)))))

/-- two writes, in either order -/
theorem outputs_pair {tty : Bool} {code : Code Line} {a b : List Line} (hcode : code.oneKid 0 = true)
    (hwrites : code.writes tty .start = [a, b]) (hab : [a, b] ∈ Outputs tty code) (hba : [b, a] ∈ Outputs tty code) :
    Outputs tty code = {[a, b], [b, a]} := by
  refine Set.Subset.antisymm (fun tr htr => ?_) (Set.pair_subset hab hba)
  have hperm := perm_of_mem_outputs htr hcode
  rw [hwrites] at hperm
  exact perm_pair hperm

/-- the first line of `p1` comes first, on a terminal -/
theorem p1_head {tr : List (List Line)} (h : tr ∈ Outputs true p1) :
    tr = [[.hello []], [.child [0]], [.parent (some [0]) []]] ∨
      tr = [[.hello []], [.parent (some [0]) []], [.child [0]]] := by
  have hperm : tr.Perm [[.hello []], [.child [0]], [.parent (some [0]) []]] := perm_of_mem_outputs h rfl
  have hhead : tr.head? = some [.hello []] := head_of_mem_outputs h
  cases tr with
  | nil => cases hhead
  | cons w tr =>
    obtain rfl := Option.some.inj hhead
    exact (perm_pair ((List.perm_cons _).1 hperm)).imp (congrArg _) (congrArg _)

/-- **`p1` and `hw5-1`.** Either process may be first. In a file or a pipe the first line of `p1` is there twice. -/
theorem p1_outputs :
    Outputs true p1 = {[[.hello []], [.child [0]], [.parent (some [0]) []]],
      [[.hello []], [.parent (some [0]) []], [.child [0]]]} ∧
    Outputs false p1 = {[[.hello [], .child [0]], [.hello [], .parent (some [0]) []]],
      [[.hello [], .parent (some [0]) []], [.hello [], .child [0]]]} ∧
    ∀ tty, Outputs tty hw5_1 = {[[.childX 101], [.parentX 101]], [[.parentX 101], [.childX 101]]} := by
  -- the child, or the parent, runs to its end as soon as it can
  refine ⟨Set.Subset.antisymm (fun _ htr => p1_head htr) (Set.pair_subset ?_ ?_), outputs_pair rfl rfl ?_ ?_, ?_⟩
  · exact mem_outputs_of_exec true p1 [(0, none), (0, none), (1, none), (1, none), (0, none), (0, none)] rfl
  · exact mem_outputs_of_exec true p1 [(0, none), (0, none), (0, none), (0, none), (1, none), (1, none)] rfl
  · exact mem_outputs_of_exec false p1 [(0, none), (0, none), (1, none), (1, none), (0, none), (0, none)] rfl
  · exact mem_outputs_of_exec false p1 [(0, none), (0, none), (0, none), (0, none), (1, none), (1, none)] rfl
  · intro tty
    cases tty with
    | false =>
      refine outputs_pair rfl rfl ?_ ?_
      · exact mem_outputs_of_exec false hw5_1 [(0, none), (1, none), (1, none), (0, none), (0, none)] rfl
      · exact mem_outputs_of_exec false hw5_1 [(0, none), (0, none), (0, none), (1, none), (1, none)] rfl
    | true =>
      refine outputs_pair rfl rfl ?_ ?_
      · exact mem_outputs_of_exec true hw5_1 [(0, none), (1, none), (1, none), (0, none), (0, none)] rfl
      · exact mem_outputs_of_exec true hw5_1 [(0, none), (0, none), (0, none), (1, none), (1, none)] rfl

/-! ## Printing after the child -/

/-- **`p2`, `p3`, `p4` and `hw5-2`.** There is only one output. What `output.txt` has held stays behind the two
lines. -/
theorem p2_outputs :
    Outputs true p2 = {[[.hello []], [.child [0]], [.parentWait (some [0]) (some [0]) []]]} ∧
    Outputs false p2 = {[[.hello [], .child [0]], [.hello [], .parentWait (some [0]) (some [0]) []]]} ∧
    Outputs true p3 = {[[.hello []], [.child [0]], [.wc], [.parentWait (some [0]) (some [0]) []]]} ∧
    Outputs false p3 = {[[.wc], [.hello [], .parentWait (some [0]) (some [0]) []]]} ∧
    (∀ tty, Outputs tty p4 = {[[.wc]]}) ∧
    ∀ old, (fun tr => overwrite old tr.flatten.flatten) '' Outputs true hw5_2 =
      {"child print\nparent print\n".toList ++ old.drop 25} := by
  refine ⟨outputs_sequential true rfl, outputs_sequential false rfl, outputs_sequential true rfl,
    outputs_sequential false rfl, fun tty => ?_, fun old => ?_⟩
  · rw [outputs_sequential tty rfl]
    cases tty <;> rfl
  · rw [outputs_sequential true rfl, Set.image_singleton]
    rfl

/-! ## How many processes there are -/

theorem forks_size (n : ℕ) : (forks n).size + 1 = 2 ^ (n + 1) ∧ (forks n).forks + 1 = 2 ^ n := by
  induction n with
  | zero => exact ⟨rfl, rfl⟩
  | succ n ih =>
    rw [forks, Code.size, Code.forks, pow_succ, pow_succ 2 n]
    omega

/-- **`multiple_fork`.** In whatever order they run, 7 processes are created; a run ends when all 8 have ended. -/
theorem multiple_fork_processes (tty : Bool) {as : List (ℕ × Option Name)} {tr : List (List Empty)}
    {s : St ℕ (List (Proc Empty)) Unit} (h : Run (step tty) (start multiple_fork) as tr s) :
    s.sh.length ≤ 8 ∧ as.length ≤ 15 ∧ (AllEnded s.sh ↔ as.length = 15) ∧ (AllEnded s.sh → s.sh.length = 8) ∧
      ∃ bs tr' s', Run (step tty) (start multiple_fork) (as ++ bs) (tr ++ tr') s' ∧ AllEnded s'.sh := by
  have hsize := run_size h
  have hforks := run_forks h
  have hthree : multiple_fork.size + 1 = 2 ^ 4 ∧ multiple_fork.forks + 1 = 2 ^ 3 := forks_size 3
  refine ⟨by omega, by omega, ⟨fun hended => ?_, fun hlen => ?_⟩, fun hended => ?_, run_completes h⟩
  · rw [total_of_allEnded _ hended] at hsize
    omega
  · exact allEnded_of_total (by omega)
  · rw [total_of_allEnded _ hended] at hforks
    omega

/-- four processes are under way, each with one more `fork` to call -/
theorem multiple_fork_four : ∃ as tr s, Run (step true) (start multiple_fork) as tr s ∧ s.sh.length = 4 ∧
    ¬ AllEnded s.sh ∧ ∃ bs tr' s', Run (step true) (start multiple_fork) (as ++ bs) (tr ++ tr') s' ∧
      AllEnded s'.sh ∧ s'.sh.length = 8 ∧ (as ++ bs).length = 15 := by
  obtain ⟨s, tr, h, hlen, hlive⟩ := exec_any_run (step true) (start multiple_fork) [(0, none), (1, none), (0, none)]
    (fun s _ => s.sh.length = 4 ∧ ¬ AllEnded s.sh) (by decide)
  obtain ⟨-, -, -, -, bs, tr', s', h', hended⟩ := multiple_fork_processes true h
  obtain ⟨-, -, hsteps, hprocs, -⟩ := multiple_fork_processes true h'
  exact ⟨_, tr, s, h, hlen, hlive, bs, tr', s', h', hended, hprocs hended, hsteps.1 hended⟩

end OsPractice.ForkPrograms
