/-
`chmoda+rX` (`fileattrs/chmoda+rX.c`), which gives everyone read access to its operands, and execute access where
someone has it already or the file is a directory. The program sets the permissions instead of adding to them, takes
block devices and sockets for directories, and begins with its own name.

A path leads to a file or to none, whatever the permissions are; several paths may lead to one file. `chmod` succeeds.

Results:
- `setTo_eq_wanted`, `setTo_eq_self`: when the program sets the permissions as it should, and when it changes nothing;
- `finalMode`: the modes after a run;
- `acts_as_arX`: when the program does what `chmod a+rX` does.
-/
import OsPractice.Core.FileAttrs

namespace OsPractice.ChmodaRX

open FileAttrs

variable {N K : Type} [DecidableEq K]

/-! ## The program -/

/-- the permissions that are set on a file with the mode `st_mode` -/
def perms (st_mode : BitVec 32) : BitVec 32 :=
  let perms := S_IRUSR ||| S_IRGRP ||| S_IROTH
  if st_mode &&& S_IFDIR ≠ 0 ∨ st_mode &&& S_IXUSR ≠ 0 ∨ st_mode &&& S_IXGRP ≠ 0 ∨ st_mode &&& S_IXOTH ≠ 0 then
    perms ||| (S_IXUSR ||| S_IXGRP ||| S_IXOTH)
  else perms

/-- `arX` for a file with the mode `m` -/
def setTo (m : Mode) : Mode := m.chmod (perms m.st_mode)

/-- `arX`; `none` when `stat` fails and the program exits with an error -/
def arX (key : N → Option K) (modes : K → Mode) (path : N) : Option (K → Mode) :=
  (key path).map fun k => Function.update modes k (setTo (modes k))

/-- the loop over `argv`: the modes when the program exits, and whether it exits with success -/
def loop (key : N → Option K) (modes : K → Mode) : List N → (K → Mode) × Bool
  | [] => (modes, true)
  | path :: argv =>
    match arX key modes path with
    | none => (modes, false)
    | some modes => loop key modes argv

def chmodaRX (key : N → Option K) (modes : K → Mode) (argv0 : N) (operands : List N) : (K → Mode) × Bool :=
  -- no operands: how to use the program
  if operands = [] then (modes, false) else loop key modes (argv0 :: operands)

/-! ## What is wanted -/

def readAll : BitVec 12 := 0o444#12

def execAll : BitVec 12 := 0o111#12

/-- a directory, or a file with an execute bit -/
def Searchable (m : Mode) : Prop := m.type = .dir ∨ m.perm &&& execAll ≠ 0#12

instance (m : Mode) : Decidable (Searchable m) := inferInstanceAs (Decidable (_ ∨ _))

/-- the mode after `chmod a+rX` -/
def wanted (m : Mode) : Mode := { m with perm := m.perm ||| readAll ||| if Searchable m then execAll else 0#12 }

/-- the files that paths lead to -/
def files (key : N → Option K) (paths : List N) : List K := paths.filterMap key

/-- the operands' modes are the ones wanted, and the others' are as they were -/
def ActsAsArX (key : N → Option K) (modes : K → Mode) (argv0 : N) (operands : List N) : Prop :=
  ∀ k, (chmodaRX key modes argv0 operands).1 k = if k ∈ files key operands then wanted (modes k) else modes k

/-! ## The permissions of one file -/

/-- the type passes the test for directories -/
def DirBit (t : FileType) : Prop := t = .dir ∨ t = .blk ∨ t = .sock

instance (t : FileType) : Decidable (DirBit t) := inferInstanceAs (Decidable (_ ∨ _))

theorem and_execAll (p : BitVec 12) :
    p &&& execAll = 0#12 ↔ p &&& 0o100#12 = 0#12 ∧ p &&& 0o010#12 = 0#12 ∧ p &&& 0o001#12 = 0#12 := by
  have hsplit : execAll = 0o100#12 ||| (0o010#12 ||| 0o001#12) := rfl
  rw [hsplit, BitVec.and_or_distrib_left, BitVec.and_or_distrib_left]
  simp [BitVec.or_eq_zero_iff]

/-- what is set, in terms of the type and the permissions -/
theorem setTo_eq (m : Mode) :
    setTo m = { m with perm := readAll ||| if DirBit m.type ∨ m.perm &&& execAll ≠ 0#12 then execAll else 0#12 } := by
  have hdir : m.st_mode &&& S_IFDIR ≠ 0 ↔ DirBit m.type := by
    rw [m.st_mode_and_type (by decide)]
    cases m.type <;> decide
  have hbit (p : BitVec 12) : m.st_mode &&& p.setWidth 32 = 0 ↔ m.perm &&& p = 0#12 := by
    rw [m.st_mode_and_perm]
    constructor
    · intro h
      have hlow := congrArg (BitVec.setWidth 12) h
      simpa using hlow
    · intro h
      rw [h]
      rfl
  have hexec : (m.st_mode &&& S_IXUSR ≠ 0 ∨ m.st_mode &&& S_IXGRP ≠ 0 ∨ m.st_mode &&& S_IXOTH ≠ 0) ↔
      m.perm &&& execAll ≠ 0#12 := by
    have husr : m.st_mode &&& S_IXUSR = 0 ↔ m.perm &&& 0o100#12 = 0#12 := hbit 0o100#12
    have hgrp : m.st_mode &&& S_IXGRP = 0 ↔ m.perm &&& 0o010#12 = 0#12 := hbit 0o010#12
    have hoth : m.st_mode &&& S_IXOTH = 0 ↔ m.perm &&& 0o001#12 = 0#12 := hbit 0o001#12
    rw [ne_eq, ne_eq, ne_eq, ne_eq, husr, hgrp, hoth, and_execAll]
    tauto
  rw [setTo, Mode.chmod, perms]
  simp only [hdir, hexec]
  split_ifs <;> rfl

/-- nothing is taken away, and no other type is taken for a directory -/
def Plain (m : Mode) : Prop :=
  m.perm &&& 0o7222#12 = 0#12 ∧ (m.type = .blk ∨ m.type = .sock → m.perm &&& execAll ≠ 0#12)

/-- the program sets the permissions as it should -/
theorem setTo_eq_wanted (m : Mode) : setTo m = wanted m ↔ Plain m := by
  rw [setTo_eq, wanted, Plain, Mode.mk.injEq, and_iff_right rfl]
  by_cases hexec : m.perm &&& execAll = 0#12
  · by_cases hdir : m.type = .dir
    · -- execute access is added
      have hall : m.perm ||| readAll ||| execAll = m.perm ||| 0o555#12 := BitVec.or_assoc ..
      rw [if_pos (.inl (.inl hdir)), if_pos (.inl hdir), hall, eq_comm]
      refine (or_eq_right_iff m.perm 0o555#12).trans (and_iff_left ?_).symm
      simp [hdir]
    · have hno : ¬ Searchable m := by simp [Searchable, hdir, hexec]
      rw [if_neg hno, BitVec.or_zero]
      by_cases hother : m.type = .blk ∨ m.type = .sock
      · rw [if_pos (.inl (.inr hother))]
        refine iff_of_false ?_ (fun h => h.2 hother hexec)
        intro h
        have hx := congrArg (· &&& execAll) h
        simp only [BitVec.and_or_distrib_right, hexec] at hx
        exact absurd hx (by decide)
      · have hbit : ¬ (DirBit m.type ∨ m.perm &&& execAll ≠ 0#12) := by
          rw [DirBit]
          tauto
        have hsplit : (~~~readAll) = 0o7222#12 ||| execAll := rfl
        rw [if_neg hbit, BitVec.or_zero, eq_comm, or_eq_right_iff, hsplit, BitVec.and_or_distrib_left, hexec,
          BitVec.or_zero]
        simp [hother]
  · have hall : m.perm ||| readAll ||| execAll = m.perm ||| 0o555#12 := BitVec.or_assoc ..
    rw [if_pos (.inr hexec), if_pos (.inr hexec), hall, eq_comm]
    exact (or_eq_right_iff m.perm 0o555#12).trans (and_iff_left fun _ => hexec).symm

/-- the permissions are the ones that the program sets -/
def Settled (m : Mode) : Prop := m.perm = 0o555#12 ∨ m.perm = 0o444#12 ∧ ¬ DirBit m.type

/-- the program changes nothing -/
theorem setTo_eq_self (m : Mode) : setTo m = m ↔ Settled m := by
  have hperm : setTo m = m ↔
      (readAll ||| if DirBit m.type ∨ m.perm &&& execAll ≠ 0#12 then execAll else 0#12) = m.perm := by
    rw [setTo_eq]
    constructor
    · exact fun h => congrArg Mode.perm h
    · intro h
      rw [h]
  rw [hperm, Settled]
  split_ifs with hbit
  · constructor
    · exact fun h => .inl h.symm
    · rintro (h | ⟨h, hdir⟩)
      · rw [h]
        rfl
      · rcases hbit with hbit | hbit
        · exact absurd hbit hdir
        · rw [h] at hbit
          exact absurd rfl hbit
  · rw [not_or, not_not] at hbit
    constructor
    · exact fun h => .inr ⟨h.symm, hbit.1⟩
    · rintro (h | ⟨h, -⟩)
      · rw [h] at hbit
        exact absurd hbit.2 (by decide)
      · rw [h]
        rfl

/-- everyone has read access, and execute access if there should be any -/
def Already (m : Mode) : Prop := m.perm &&& readAll = readAll ∧ (Searchable m → m.perm &&& execAll = execAll)

/-- there is nothing to add -/
theorem wanted_eq_self (m : Mode) : wanted m = m ↔ Already m := by
  have hperm : wanted m = m ↔ (m.perm ||| readAll ||| if Searchable m then execAll else 0#12) = m.perm := by
    rw [wanted]
    constructor
    · exact fun h => congrArg Mode.perm h
    · intro h
      rw [h]
  rw [hperm, Already, or_or_eq_left_iff, or_eq_left_iff]
  split_ifs with hs
  · rw [or_eq_left_iff, forall_prop_of_true hs]
  · rw [BitVec.or_zero, forall_prop_of_false hs]
    simp

theorem settled_setTo (m : Mode) : Settled (setTo m) := by
  rw [setTo_eq]
  split_ifs with hbit
  · exact .inl rfl
  · exact .inr ⟨rfl, fun hdir => hbit (.inl hdir)⟩

/-! ## The run -/

/-- the loop over paths that all lead to files -/
theorem loop_files {key : N → Option K} {argv : List N} (h : ∀ path ∈ argv, (key path).isSome) (modes : K → Mode) :
    loop key modes argv = (applyAll setTo (files key argv) modes, true) := by
  induction argv generalizing modes with
  | nil => rfl
  | cons path argv ih =>
    obtain ⟨hpath, hargv⟩ := List.forall_mem_cons.1 h
    obtain ⟨k, hk⟩ := Option.isSome_iff_exists.1 hpath
    rw [loop, arX, hk, Option.map_some]
    simp only [ih hargv, files, List.filterMap_cons, hk, applyAll_cons]

/-- the modes after a run with operands that lead to files: if the program's name does not, nothing is changed -/
theorem finalMode {key : N → Option K} {argv0 : N} {operands : List N} (h : ∀ path ∈ operands, (key path).isSome)
    (hne : operands ≠ []) (modes : K → Mode) (k : K) :
    (chmodaRX key modes argv0 operands).1 k =
      if (∃ k₀, key argv0 = some k₀ ∧ (k = k₀ ∨ k ∈ files key operands)) then setTo (modes k) else modes k := by
  have hidem (m : Mode) : setTo (setTo m) = setTo m := (setTo_eq_self (setTo m)).2 (settled_setTo m)
  rw [chmodaRX, if_neg hne]
  cases hkey : key argv0 with
  | none => simp [loop, arX, hkey]
  | some k₀ =>
    have hall : ∀ path ∈ argv0 :: operands, (key path).isSome :=
      List.forall_mem_cons.2 ⟨by rw [hkey]; rfl, h⟩
    have hfiles : files key (argv0 :: operands) = k₀ :: files key operands := by
      rw [files, List.filterMap_cons, hkey]
      rfl
    rw [loop_files hall, hfiles]
    simp [applyAll_eq hidem, List.mem_cons]

/-- **The operands.** For every file system and all operands that exist: after the run the operands' permissions are
the ones wanted and those of all other files as they were, if and only if there are no operands, or the program's name
leads to no file and there is nothing to add, or it leads to a file, nothing of an operand's permissions is write
access or above, no operand without execute bit is a block device or a socket, and the program's file is an operand or
has the permissions that would be set. -/
theorem acts_as_arX (key : N → Option K) (modes : K → Mode) (argv0 : N) {operands : List N}
    (h : ∀ path ∈ operands, (key path).isSome) :
    ActsAsArX key modes argv0 operands ↔
      operands = [] ∨ key argv0 = none ∧ (∀ k ∈ files key operands, Already (modes k)) ∨
        ∃ k₀, key argv0 = some k₀ ∧ (∀ k ∈ files key operands, Plain (modes k)) ∧
          (k₀ ∈ files key operands ∨ Settled (modes k₀)) := by
  rcases eq_or_ne operands [] with rfl | hne
  · refine iff_of_true (fun k => ?_) (.inl rfl)
    simp [chmodaRX, files]
  · rw [or_iff_right hne, ActsAsArX]
    simp only [finalMode h hne]
    cases hkey : key argv0 with
    | none =>
      simp only [reduceCtorEq, false_and, exists_false, if_false, or_false, true_and]
      refine forall_congr' fun k => ?_
      by_cases hk : k ∈ files key operands
      · rw [if_pos hk, eq_comm, wanted_eq_self, forall_prop_of_true hk]
      · rw [if_neg hk, forall_prop_of_false hk]
        simp
    | some k₀ =>
      simp only [reduceCtorEq, false_and, false_or, Option.some_inj, exists_eq_left']
      constructor
      · intro hright
        constructor
        · intro k hk
          have hmode := hright k
          rw [if_pos (.inr hk), if_pos hk] at hmode
          exact (setTo_eq_wanted _).1 hmode
        · refine or_iff_not_imp_left.2 fun hk₀ => ?_
          have hmode := hright k₀
          rw [if_pos (.inl rfl), if_neg hk₀] at hmode
          exact (setTo_eq_self _).1 hmode
      · rintro ⟨hplain, hargv0⟩ k
        by_cases hk : k ∈ files key operands
        · rw [if_pos (.inr hk), if_pos hk]
          exact (setTo_eq_wanted _).2 (hplain k hk)
        · rw [if_neg hk]
          split_ifs with hchanged
          · obtain rfl := hchanged.resolve_right hk
            exact (setTo_eq_self _).2 (hargv0.resolve_left hk)
          · rfl

/-- a directory that its owner can read and search; the program's file has the permissions that would be set -/
theorem acts_as_arX_dir :
    (chmodaRX some (fun dir : Bool => if dir then ⟨.dir, 0o500#12⟩ else ⟨.reg, 0o555#12⟩) false [true]).1 true =
      ⟨.dir, 0o555#12⟩ := by
  have hexist : ∀ path ∈ [true], (some path).isSome := by decide
  have hright := (acts_as_arX some (fun dir : Bool => if dir then ⟨.dir, 0o500#12⟩ else ⟨.reg, 0o555#12⟩) false hexist).2
  refine hright (.inr (.inr ⟨false, rfl, ?_, .inr (.inl rfl)⟩)) true
  intro k hk
  obtain rfl : k = true := by simpa [files] using hk
  exact ⟨by decide, fun h => absurd h (by decide)⟩

/-- a file that its owner can write: the permission is taken away -/
theorem not_acts_as_arX :
    ¬ ∀ (key : Bool → Option Bool) (modes : Bool → Mode) (argv0 : Bool) (operands : List Bool),
      (∀ path ∈ operands, (key path).isSome) → ActsAsArX key modes argv0 operands := by
  intro h
  have hfile := h some (fun _ => ⟨.reg, 0o644#12⟩) false [true] (by decide) true
  exact absurd hfile (by decide)

end OsPractice.ChmodaRX
