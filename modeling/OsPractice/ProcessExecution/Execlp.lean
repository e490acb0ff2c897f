/-
The search for a program (`PATHContains` and `_execlp`, `process-execution/execlp.c`). `PATH` is a text of directories
with colons between them; an empty one stands for the current directory. The program takes the text apart with
`strtok`, which has no empty tokens.

The file system is what `stat` says of each path; it does not change during the search. `strdup` and `malloc` do not
fail, and `execve` does not return.

Results:
- `search_eq`: the loop finds the first usable file in the directories that are not empty;
- `pathContains_finds`: when that is the first usable file of all;
- `execlp_runs`: what `_execlp` comes to then.
-/
import OsPractice.Core.Fields
import OsPractice.Core.Bytes

namespace OsPractice.Execlp

open Bytes Fields

/-! ## The program -/

structure Stat where
  /-- which file it is -/
  ino : ℕ
  /-- `st_mode` -/
  mode : BitVec 32
  deriving DecidableEq, Repr

abbrev FileSystem := List Byte → Option Stat

/-- `S_ISREG`; `S_IFMT` is 0170000 and `S_IFREG` is 0100000 -/
def isReg (mode : BitVec 32) : Bool := mode &&& 0xF000#32 == 0x8000#32

/-- `S_IXUSR`, which is 0100 -/
def isXusr (mode : BitVec 32) : Bool := mode &&& 0x40#32 != 0

def usable (stat : FileSystem) (path : List Byte) : Bool :=
  match stat path with
  | none => false
  | some st => isReg st.mode && isXusr st.mode

/-- `':'` -/
def colon : Byte := 58

/-- `'/'` -/
def slash : Byte := 47

def PATH_MAX : ℕ := 4096

/-- `snprintf(fullpath, PATH_MAX, "%s/%s", dir, filename)` -/
def fullpathOf (dir filename : List Byte) : List Byte := (dir ++ [slash] ++ filename).take (PATH_MAX - 1)

/-- the loop: what is returned and `fullpath` -/
def search (stat : FileSystem) (filename rest fullpath : List Byte) : ℕ × List Byte :=
  match h : strtok colon rest with
  | none => (0, fullpath)
  | some (dir, rest') =>
    have := strtok_length h
    if usable stat (fullpathOf dir filename) then (1, fullpathOf dir filename)
    else search stat filename rest' (fullpathOf dir filename)
termination_by rest.length

/-- `none` when there is no `PATH`, and the program exits -/
def PATHContains (stat : FileSystem) (PATHval : Option (List Byte)) (filename fullpath : List Byte) :
    Option (ℕ × List Byte) :=
  PATHval.map fun path => search stat filename path fullpath

/-- what `_execlp` comes to -/
inductive Result where
  | execve (path : List Byte) (argv : List (List Byte))
  | commandNotFound
  | errExit
  deriving DecidableEq, Repr

/-- `args` are the arguments before the `NULL` -/
def _execlp (stat : FileSystem) (PATHval : Option (List Byte)) (pathname : List Byte) (args : List (List Byte))
    (fullpath : List Byte) : Result :=
  let argv := pathname :: args
  if slash ∈ pathname then .execve pathname argv
  else
    match PATHContains stat PATHval pathname fullpath with
    | none => .errExit
    | some (found, fullpath) => if found ≠ 0 then .execve fullpath argv else .commandNotFound

/-! ## What it is for -/

/-- the path of a file in a directory of `PATH` -/
def candidate (filename dir : List Byte) : List Byte := if dir = [] then filename else dir ++ [slash] ++ filename

/-- the first of the directories that has the file -/
def firstUsable (stat : FileSystem) (filename : List Byte) (dirs : List (List Byte)) : Option (List Byte) :=
  dirs.find? fun dir => usable stat (candidate filename dir)

/-- both paths name one file -/
def SameFile (stat : FileSystem) (p q : List Byte) : Prop := (stat p).map Stat.ino = (stat q).map Stat.ino

/-- `PATHContains` returns 1 with the file in the first directory of `path` that has one, and 0 if none has -/
def Finds (stat : FileSystem) (path filename fullpath : List Byte) : Prop :=
  match firstUsable stat filename (path.splitOn colon) with
  | none => (PATHContains stat (some path) filename fullpath).map Prod.fst = some 0
  | some dir => ∃ found, PATHContains stat (some path) filename fullpath = some (1, found) ∧
      SameFile stat found (candidate filename dir)

/-! ## The loop -/

variable {stat : FileSystem} {path filename fullpath : List Byte}

theorem candidate_of_ne {dir : List Byte} (h : dir ≠ []) : candidate filename dir = dir ++ [slash] ++ filename :=
  if_neg h

theorem firstUsable_cons (stat : FileSystem) (filename dir : List Byte) (dirs : List (List Byte)) :
    firstUsable stat filename (dir :: dirs) =
      if usable stat (candidate filename dir) then some dir else firstUsable stat filename dirs := by
  rw [firstUsable, List.find?_cons]
  split_ifs with hu <;> simp [hu, firstUsable]

theorem fullpathOf_eq {dir : List Byte} (hdir : dir ≠ []) (h : (candidate filename dir).length < PATH_MAX) :
    fullpathOf dir filename = candidate filename dir := by
  rw [candidate_of_ne hdir] at h ⊢
  exact List.take_of_length_le (Nat.le_sub_one_of_lt h)

/-- the loop finds the first usable file in the directories that are not empty -/
theorem search_eq (stat : FileSystem) {path filename : List Byte} (fullpath : List Byte)
    (h : ∀ dir ∈ nonempty colon path, (candidate filename dir).length < PATH_MAX) :
    match firstUsable stat filename (nonempty colon path) with
    | none => (search stat filename path fullpath).1 = 0
    | some dir => search stat filename path fullpath = (1, candidate filename dir) := by
  fun_induction search stat filename path fullpath with
  | case1 path fullpath hnone =>
    rw [nonempty_of_none hnone]
    rfl
  | case2 path fullpath dir rest htok hlen hu =>
    rw [nonempty_of_some htok] at h ⊢
    rw [fullpathOf_eq (strtok_ne_nil htok) (h dir List.mem_cons_self)] at hu ⊢
    rw [firstUsable_cons, if_pos hu]
  | case3 path fullpath dir rest htok hlen hu ih =>
    rw [nonempty_of_some htok] at h ⊢
    rw [fullpathOf_eq (strtok_ne_nil htok) (h dir List.mem_cons_self)] at hu ih ⊢
    rw [firstUsable_cons, if_neg hu]
    exact ih fun d hd => h d (List.mem_cons_of_mem _ hd)

/-- what the first usable file of all is among the directories that are not empty -/
theorem firstUsable_nonempty (stat : FileSystem) (filename : List Byte) (dirs : List (List Byte)) :
    firstUsable stat filename dirs = some [] ∨
      firstUsable stat filename (dirs.filter (· ≠ [])) = firstUsable stat filename dirs := by
  induction dirs with
  | nil => exact .inr rfl
  | cons dir dirs ih =>
    by_cases hu : usable stat (candidate filename dir)
    · by_cases hdir : dir = []
      · subst hdir
        exact .inl (by rw [firstUsable_cons, if_pos hu])
      · right
        rw [List.filter_cons_of_pos (by simpa using hdir), firstUsable_cons, firstUsable_cons, if_pos hu, if_pos hu]
    · rw [firstUsable_cons, if_neg hu]
      refine ih.imp_right fun ih => ?_
      by_cases hdir : dir = []
      · rw [List.filter_cons_of_neg (by simpa using hdir), ih]
      · rw [List.filter_cons_of_pos (by simpa using hdir), firstUsable_cons, if_neg hu, ih]

/-- **The search.** For every `PATH`, file name and file system, with candidates shorter than `PATH_MAX`: the search
finds the file in the first directory that has one if and only if that directory is not the empty one, or some other
has a file too and the first of these is the same file. -/
theorem pathContains_finds (stat : FileSystem) (path filename fullpath : List Byte)
    (h : ∀ dir ∈ path.splitOn colon, (candidate filename dir).length < PATH_MAX) :
    Finds stat path filename fullpath ↔
      (firstUsable stat filename (path.splitOn colon) = some [] →
        ∃ dir, firstUsable stat filename (nonempty colon path) = some dir ∧
          SameFile stat (candidate filename dir) filename) := by
  have hsearch := search_eq stat fullpath fun dir hd => h dir (List.mem_of_mem_filter hd)
  by_cases hempty : firstUsable stat filename (path.splitOn colon) = some []
  · -- the file is in the current directory, which the loop passes over
    rw [Finds, hempty]
    cases hfirst : firstUsable stat filename (nonempty colon path) with
    | none =>
      rw [hfirst] at hsearch
      refine iff_of_false ?_ ?_
      · rintro ⟨found, hfound, -⟩
        rw [PATHContains, Option.map_some, Option.some_inj] at hfound
        rw [hfound] at hsearch
        cases hsearch
      · intro hc
        obtain ⟨dir, hdir, -⟩ := hc rfl
        cases hdir
    | some dir =>
      rw [hfirst] at hsearch
      simp [PATHContains, hsearch, candidate]
  · -- the loop finds the first of all
    refine iff_of_true ?_ fun hc => absurd hc hempty
    have hfirst : firstUsable stat filename (nonempty colon path) = firstUsable stat filename (path.splitOn colon) :=
      (firstUsable_nonempty stat filename (path.splitOn colon)).resolve_left hempty
    rw [hfirst] at hsearch
    unfold Finds
    split
    · rename_i hnone
      rw [hnone] at hsearch
      simp [PATHContains, hsearch]
    · rename_i dir hdir
      rw [hdir] at hsearch
      exact ⟨_, congrArg some hsearch, rfl⟩

/-- one regular file that its owner may execute -/
def oneFile (name : List Byte) : FileSystem := fun path => if path = name then some ⟨1, 0x81C0#32⟩ else none

/-- `PATH=/a:/b`, and the file is `/b/c` -/
theorem pathContains_finds_second : Finds (oneFile [47, 98, 47, 99]) [47, 97, 58, 47, 98] [99] [] :=
  (pathContains_finds _ _ _ _ (by decide)).2 fun h => absurd h (by decide)

/-- `PATH=:/b`, and the file is in the current directory only -/
theorem not_finds :
    ¬ ∀ (stat : FileSystem) (path filename fullpath : List Byte), slash ∉ filename →
      (∀ dir ∈ path.splitOn colon, (candidate filename dir).length < PATH_MAX) → Finds stat path filename fullpath := by
  intro h
  have hfinds := h (oneFile [99]) [58, 47, 98] [99] [] (by decide) (by decide)
  have hshort : ∀ dir ∈ nonempty colon [58, 47, 98], (candidate [99] dir).length < PATH_MAX := by decide
  have hsearch := search_eq (oneFile [99]) [] hshort
  have hfirst : firstUsable (oneFile [99]) [99] (List.splitOn colon [58, 47, 98]) = some [] := by decide
  have hnone : firstUsable (oneFile [99]) [99] (nonempty colon [58, 47, 98]) = none := by decide
  rw [Finds, hfirst] at hfinds
  obtain ⟨found, hfound, -⟩ := hfinds
  rw [PATHContains, Option.map_some, Option.some_inj] at hfound
  rw [hnone, hfound] at hsearch
  cases hsearch

/-! ## The call -/

/-- a name with a slash is not searched for -/
theorem execlp_slash (PATHval : Option (List Byte)) (args : List (List Byte)) (fullpath : List Byte)
    (h : slash ∈ filename) : _execlp stat PATHval filename args fullpath = .execve filename (filename :: args) :=
  if_pos h

/-- **The call.** When the search finds the file, `_execlp` executes it, with the name and the arguments as they are
given; and it executes nothing when there is none. -/
theorem execlp_runs {args : List (List Byte)} (hslash : slash ∉ filename) (h : Finds stat path filename fullpath) :
    match firstUsable stat filename (path.splitOn colon) with
    | none => _execlp stat (some path) filename args fullpath = .commandNotFound
    | some dir => ∃ found, _execlp stat (some path) filename args fullpath = .execve found (filename :: args) ∧
        SameFile stat found (candidate filename dir) := by
  unfold Finds at h
  split
  · rename_i hnone
    rw [hnone] at h
    obtain ⟨⟨ret, found⟩, hsearch, hret⟩ := Option.map_eq_some_iff.1 h
    obtain rfl : ret = 0 := hret
    simp [_execlp, hslash, hsearch]
  · rename_i dir hdir
    rw [hdir] at h
    obtain ⟨found, hsearch, hfile⟩ := h
    exact ⟨found, by simp [_execlp, hslash, hsearch], hfile⟩

end OsPractice.Execlp
