/-
Changing an extended attribute of files (`xattrs/userxattrchg.c`): `-n` gives its name, `-v` its new value; without a
value the attribute is removed. What cannot be changed is reported, and the next operand has its turn; the program ends
with success all the same.

A path leads to a file or to none, and several paths may lead to one file. What a file lets be changed does not depend
on its attributes.

Results:
- `table_loop`, `errors_loop`: the attributes after the loop, and what it reports;
- `changes_operands`: what any command line of options and operands, in any mixture that `getopt` reads, comes to.
-/
import OsPractice.Core.Getopt
import OsPractice.Core.FileAttrs

namespace OsPractice.Userxattrchg

open Getopt FileAttrs

abbrev Word := List Char

variable {K : Type} [DecidableEq K]

/-! ## The program -/

structure File where
  attrs : Word → Option Word
  /-- whether the attribute may be given the value, or be removed -/
  may : Word → Option Word → Bool

def File.set (nam : Word) (val : Option Word) (f : File) : File :=
  if f.may nam val then { f with attrs := Function.update f.attrs nam val } else f

/-- `setxattr` with a value, `removexattr` without one: the files, and whether it fails -/
def change (key : Word → Option K) (nam : Word) (val : Option Word) (table : K → File) (pathname : Word) :
    (K → File) × Bool :=
  match key pathname with
  | none => (table, true)
  | some k =>
    (Function.update table k ((table k).set nam val),
      !(table k).may nam val || (val.isNone && ((table k).attrs nam).isNone))

/-- the loop over the operands: the files, and the paths that `perror` writes -/
def loop (key : Word → Option K) (nam : Word) (val : Option Word) (table : K → File) : List Word → (K → File) × List Word
  | [] => (table, [])
  | path :: argv =>
    let (table', failed) := change key nam val table path
    let (table'', errors) := loop key nam val table' argv
    (table'', if failed then path :: errors else errors)

/-- `"n:v:"` -/
def takes (c : Char) : Option Bool := if c = 'n' ∨ c = 'v' then some true else none

/-- `nam` and `val` after one more option -/
def option (chosen : Option Word × Option Word) : Item Char → Option Word × Option Word
  | .opt c (some optarg) =>
    if c = 'n' then (some optarg, chosen.2) else if c = 'v' then (chosen.1, some optarg) else chosen
  | _ => chosen

/-- `main`; `argv` is without the program's name, and `posix` tells of `POSIXLY_CORRECT`. `none` when it only says how
to use it -/
def main (posix : Bool) (key : Word → Option K) (table : K → File) (argv : List Word) :
    Option ((K → File) × List Word) :=
  if argv.length < 2 then none
  else
    let (items, operands) := getopt posix '-' takes argv
    if items.any Item.isBad then none
    else
      match items.foldl option (none, none) with
      | (none, _) => none
      | (some nam, val) => if operands = [] then none else some (loop key nam val table operands)

/-! ## What is wanted -/

/-- the files that paths lead to -/
def files (key : Word → Option K) (paths : List Word) : List K := paths.filterMap key

/-- the attribute of `pathname` cannot be changed, after it has been changed for the paths `before` -/
def fails (key : Word → Option K) (table : K → File) (nam : Word) (val : Option Word) (before : List Word)
    (pathname : Word) : Bool :=
  match key pathname with
  | none => true
  | some k => !(table k).may nam val || val.isNone && (((table k).attrs nam).isNone || decide (k ∈ files key before))

variable {key : Word → Option K} {nam : Word} {val : Option Word} {items : List (Item Char)} {os ws : List Word}

/-! ## The loop -/

theorem set_set (f : File) : (f.set nam val).set nam val = f.set nam val := by
  simp only [File.set]
  split_ifs with h
  · simp
  · rfl

theorem set_may (f : File) (n : Word) (v : Option Word) : (f.set nam val).may n v = f.may n v := by
  simp only [File.set]
  split_ifs <;> rfl

theorem set_attrs {f : File} (h : f.may nam val = true) : (f.set nam val).attrs nam = val := by
  simp only [File.set, if_pos h, Function.update_self]

theorem change_table (key : Word → Option K) (nam : Word) (val : Option Word) (table : K → File) (path : Word) :
    (change key nam val table path).1 = applyAll (File.set nam val) (files key [path]) table := by
  simp only [change, files, List.filterMap_cons, List.filterMap_nil]
  cases key path with
  | none => rfl
  | some k => rfl

/-- the files that the operands lead to are changed, however often -/
theorem table_loop (key : Word → Option K) (nam : Word) (val : Option Word) (os : List Word) (table : K → File) :
    (loop key nam val table os).1 = applyAll (File.set nam val) (files key os) table := by
  induction os generalizing table with
  | nil => rfl
  | cons path os ih =>
    have hsplit : files key (path :: os) = files key [path] ++ files key os := by
      rw [files, files, files, ← List.filterMap_append]
      rfl
    simp only [loop, ih, change_table]
    rw [hsplit, applyAll, applyAll, applyAll, List.foldl_append]

/-- whether an operand is reported -/
theorem change_fails (key : Word → Option K) (nam : Word) (val : Option Word) (before : List Word) (table : K → File)
    (path : Word) :
    (change key nam val (applyAll (File.set nam val) (files key before) table) path).2 =
      fails key table nam val before path := by
  simp only [change, fails]
  cases key path with
  | none => rfl
  | some k =>
    simp only [applyAll_eq set_set]
    by_cases hk : k ∈ files key before
    · simp only [if_pos hk, set_may, decide_eq_true hk, Bool.or_true, Bool.and_true]
      cases hmay : (table k).may nam val with
      | false => rfl
      | true =>
        rw [set_attrs hmay]
        cases val with
        | none => rfl
        | some v => rfl
    · simp only [if_neg hk, decide_eq_false hk, Bool.or_false]

theorem errors_loop (key : Word → Option K) (nam : Word) (val : Option Word) (table : K → File) (os before : List Word) :
    (loop key nam val (applyAll (File.set nam val) (files key before) table) os).2 =
      ((os.zipIdx before.length).filter fun x => fails key table nam val ((before ++ os).take x.2) x.1).map Prod.fst := by
  induction os generalizing before with
  | nil => rfl
  | cons path os ih =>
    have hnext : (change key nam val (applyAll (File.set nam val) (files key before) table) path).1 =
        applyAll (File.set nam val) (files key (before ++ [path])) table := by
      rw [change_table, files, files, files, List.filterMap_append, applyAll, applyAll, applyAll, List.foldl_append]
    have htake : (before ++ path :: os).take before.length = before := List.take_left' rfl
    have hrest : before ++ path :: os = (before ++ [path]) ++ os := by simp
    have ih := ih (before ++ [path])
    rw [List.length_append, List.length_singleton, ← hrest] at ih
    simp only [loop, hnext, ih, change_fails, List.zipIdx_cons, List.filter_cons, htake]
    split_ifs <;> rfl

/-! ## Command lines -/

/-- the loop over the options keeps the last of each -/
theorem foldl_option (items : List (Item Char)) :
    items.foldl option (none, none) = (lastArg 'n' items, lastArg 'v' items) := by
  induction items using List.reverseRecOn with
  | nil => rfl
  | append_singleton items item ih =>
    rw [List.foldl_append, ih, List.foldl_cons, List.foldl_nil, lastArg_concat, lastArg_concat]
    cases item with
    | bad c => rfl
    | opt c arg =>
      cases arg with
      | none => simp [option, argOf]
      | some arg =>
        simp only [option, argOf]
        by_cases hn : c = 'n'
        · simp [hn]
        · by_cases hv : c = 'v'
          · simp [hv]
          · simp [hn, hv]

/-- **Every operand's file gets the attribute, or loses it, and no other file does; what cannot be changed is
reported.** -/
theorem changes_operands {posix : Bool} (h : Line posix '-' takes items os ws) (hos : os ≠ [])
    (hnam : lastArg 'n' items = some nam) (table : K → File) :
    main posix key table ws =
      some (fun k => if k ∈ files key os then (table k).set nam (lastArg 'v' items) else table k,
        (os.zipIdx.filter fun x => fails key table nam (lastArg 'v' items) (os.take x.2) x.1).map Prod.fst) := by
  have hlen : ¬ ws.length < 2 := by
    have hle := h.length_le
    have hitems : items ≠ [] := by
      rintro rfl
      cases hnam
    have := List.length_pos_iff.2 hitems
    have := List.length_pos_iff.2 hos
    omega
  have herrors := errors_loop key nam (lastArg 'v' items) table os []
  rw [main, if_neg hlen, getopt_line h]
  simp only [h.any_isBad, Bool.false_eq_true, if_false, foldl_option, hnam, if_neg hos, Option.some.injEq]
  refine Prod.ext (funext fun k => ?_) herrors
  rw [table_loop, applyAll_eq set_set]

/-- `a.out f -n user.a -v x g f`, where there is no file `g` -/
theorem changes_operands_two :
    main false (fun p => if p = "f".toList then some () else none) (fun _ => ⟨fun _ => none, fun _ _ => true⟩)
        ["f".toList, "-n".toList, "user.a".toList, "-v".toList, "x".toList, "g".toList, "f".toList] =
      some (fun _ => File.set "user.a".toList (some "x".toList) ⟨fun _ => none, fun _ _ => true⟩, ["g".toList]) := by
  have hopts : Options '-' takes [.opt 'n' (some "user.a".toList), .opt 'v' (some "x".toList)]
      ["-n".toList, "user.a".toList, "-v".toList, "x".toList] :=
    .separate rfl (by decide) (.separate rfl (by decide) .nil)
  have hline : Line false '-' takes _ ["f".toList, "g".toList, "f".toList] _ :=
    .operand rfl (by decide) (.options hopts (.operand rfl (by decide) (.operand rfl (by decide) .nil)))
  exact changes_operands hline (by decide) rfl _

end OsPractice.Userxattrchg
