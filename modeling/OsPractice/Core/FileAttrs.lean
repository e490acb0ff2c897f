/-
The attributes of files. Library: nothing here names a program.

The mode of a file is its type and its permissions in one word. The type is a number in the bits 12 to 15, not a set of
bits: the numbers of two types may have bits in common, and then a test of one type's bits also holds for the other. The
permissions, with the set-user-ID, set-group-ID and sticky bits, are the bits 0 to 11.

A table gives every file its attributes; a program goes through a list of files and changes the attributes of each.

Results:
- `st_mode_and_type`, `st_mode_and_perm`: a test of bits of the one part does not see the other;
- `applyAll_eq`: what is in the table when the list is done, if changing the same attributes again does nothing.
-/
import Mathlib.Tactic

namespace OsPractice.FileAttrs

/-! ## Modes -/

def S_IFSOCK : BitVec 32 := 0o140000#32
def S_IFLNK : BitVec 32 := 0o120000#32
def S_IFREG : BitVec 32 := 0o100000#32
def S_IFBLK : BitVec 32 := 0o060000#32
def S_IFDIR : BitVec 32 := 0o040000#32
def S_IFCHR : BitVec 32 := 0o020000#32
def S_IFIFO : BitVec 32 := 0o010000#32

def S_IRUSR : BitVec 32 := 0o400#32
def S_IXUSR : BitVec 32 := 0o100#32
def S_IRGRP : BitVec 32 := 0o040#32
def S_IXGRP : BitVec 32 := 0o010#32
def S_IROTH : BitVec 32 := 0o004#32
def S_IXOTH : BitVec 32 := 0o001#32

inductive FileType where
  | reg
  | dir
  | chr
  | blk
  | fifo
  | sock
  | lnk
deriving DecidableEq, Repr

def FileType.code : FileType → BitVec 32
  | .reg => S_IFREG
  | .dir => S_IFDIR
  | .chr => S_IFCHR
  | .blk => S_IFBLK
  | .fifo => S_IFIFO
  | .sock => S_IFSOCK
  | .lnk => S_IFLNK

structure Mode where
  type : FileType
  perm : BitVec 12
deriving DecidableEq, Repr

/-- the word that `stat` gives -/
def Mode.st_mode (m : Mode) : BitVec 32 := m.type.code ||| m.perm.setWidth 32

/-- the mode after `chmod` with the word `perms` -/
def Mode.chmod (m : Mode) (perms : BitVec 32) : Mode := { m with perm := perms.setWidth 12 }

theorem FileType.code_low (t : FileType) {i : ℕ} (hi : i < 12) : t.code.getLsbD i = false := by
  have hall : ∀ i < 12, t.code.getLsbD i = false := by cases t <;> decide
  exact hall i hi

/-- bits of the type -/
theorem Mode.st_mode_and_type (m : Mode) {b : BitVec 32} (hb : ∀ i < 12, b.getLsbD i = false) :
    m.st_mode &&& b = m.type.code &&& b := by
  refine BitVec.eq_of_getLsbD_eq fun i hi => ?_
  rw [st_mode, BitVec.getLsbD_and, BitVec.getLsbD_and, BitVec.getLsbD_or, BitVec.getLsbD_setWidth]
  by_cases hlow : i < 12
  · rw [hb i hlow, Bool.and_false, Bool.and_false]
  · rw [BitVec.getLsbD_of_ge m.perm i (not_lt.1 hlow), Bool.and_false, Bool.or_false]

/-- bits of the permissions -/
theorem Mode.st_mode_and_perm (m : Mode) (p : BitVec 12) :
    m.st_mode &&& p.setWidth 32 = (m.perm &&& p).setWidth 32 := by
  refine BitVec.eq_of_getLsbD_eq fun i hi => ?_
  simp only [st_mode, BitVec.getLsbD_and, BitVec.getLsbD_or, BitVec.getLsbD_setWidth, hi, decide_true, Bool.true_and]
  by_cases hlow : i < 12
  · rw [m.type.code_low hlow, Bool.false_or]
  · rw [BitVec.getLsbD_of_ge p i (not_lt.1 hlow), Bool.and_false, Bool.and_false]

/-! ## Sets of bits -/

section Bits

variable {w : ℕ} (p a b : BitVec w)

/-- no bit of `p` is outside `a` -/
theorem or_eq_right_iff : p ||| a = a ↔ p &&& ~~~a = 0#w := by
  constructor
  · intro h
    refine BitVec.eq_of_getLsbD_eq fun i hi => ?_
    rw [← h]
    simp only [BitVec.getLsbD_and, BitVec.getLsbD_not, BitVec.getLsbD_or, BitVec.getLsbD_zero]
    cases p.getLsbD i <;> simp
  · intro h
    refine BitVec.eq_of_getLsbD_eq fun i hi => ?_
    have hbit := congrArg (fun q => q.getLsbD i) h
    simp [hi] at hbit ⊢
    exact hbit

/-- every bit of `a` is in `p` -/
theorem or_eq_left_iff : p ||| a = p ↔ p &&& a = a := by
  constructor
  · intro h
    rw [← h]
    refine BitVec.eq_of_getLsbD_eq fun i _ => ?_
    simp
    tauto
  · intro h
    rw [← h]
    refine BitVec.eq_of_getLsbD_eq fun i _ => ?_
    simp
    tauto

/-- two sets of bits added to a third -/
theorem or_or_eq_left_iff : p ||| a ||| b = p ↔ p ||| a = p ∧ p ||| b = p := by
  constructor
  · intro h
    constructor
    · calc p ||| a = p ||| a ||| b ||| a := by rw [h]
        _ = p ||| a ||| b := by
          rw [BitVec.or_assoc, BitVec.or_comm b a, ← BitVec.or_assoc, BitVec.or_assoc p a a, BitVec.or_self]
        _ = p := h
    · calc p ||| b = p ||| a ||| b ||| b := by rw [h]
        _ = p ||| a ||| b := by rw [BitVec.or_assoc (p ||| a) b b, BitVec.or_self]
        _ = p := h
  · rintro ⟨ha, hb⟩
    rw [ha, hb]

end Bits

/-! ## Tables of files -/

variable {K V : Type} [DecidableEq K] {f : V → V}

/-- change the attributes of the files of a list, one after the other -/
def applyAll (f : V → V) (ks : List K) (table : K → V) : K → V :=
  ks.foldl (fun table k => Function.update table k (f (table k))) table

theorem applyAll_cons (f : V → V) (k : K) (ks : List K) (table : K → V) :
    applyAll f (k :: ks) table = applyAll f ks (Function.update table k (f (table k))) := rfl

/-- a file may be in the list any number of times -/
theorem applyAll_eq (hf : ∀ v, f (f v) = f v) (ks : List K) (table : K → V) (k : K) :
    applyAll f ks table k = if k ∈ ks then f (table k) else table k := by
  induction ks generalizing table with
  | nil => rfl
  | cons k' ks ih =>
    rw [applyAll_cons, ih]
    by_cases hk : k = k'
    · subst hk
      rw [Function.update_self, hf, if_pos List.mem_cons_self, ite_self]
    · simp only [Function.update_of_ne hk, List.mem_cons, or_iff_right hk]

end OsPractice.FileAttrs
