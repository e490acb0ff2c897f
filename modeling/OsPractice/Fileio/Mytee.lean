/-
`mytee` (`fileio/mytee.c`), which copies its standard input to its standard output and to files. With the option `-a`
it appends to them; but then the loop that opens the files begins with the option, and opens a file `-a` too.

The arguments are those behind the program's name. Calls do not fail and writes are complete. Names may lead to one
file. The assignment of the sentinel `-1` behind the end of `fds` is lost.

Results:
- `openAll_spec`: what is open, and what opening does to the files;
- `copy_trunc`, `copy_append`: what copying does to them;
- `mytee_copies`: when the named files, and no others, have been written.
-/
import OsPractice.Core.OpenFiles

namespace OsPractice.Mytee

open Bytes OpenFiles

/-! ## The program -/

def BUFF_SIZE : ℕ := 511

abbrev Name := List Byte

/-- what a `read` of the standard input gives -/
abbrev Chunk := { bs : List Byte // bs ≠ [] ∧ bs.length ≤ BUFF_SIZE }

/-- `-a` -/
def dashA : Name := [45, 97]

inductive Result (K : Type) where
  | usage
  | failed
  | done (files : Files K) (stdout : List Byte)

variable {K : Type} [DecidableEq K]

/-- the loop that opens the files: what is open, `fds` and `j` -/
def openAll (flags : Flags) (key : Name → K) : List Name → Files K → List (Option ℕ) → ℕ →
    Files K × List (Option ℕ) × ℕ
  | [], fs, fds, j => (fs, fds, j)
  | name :: args, fs, fds, j =>
    let (fs, fd) := openFile flags (key name) fs
    openAll flags key args fs (fds.set j (some fd)) (j + 1)

/-- the loop over `fds`, in which `none` is `-1` -/
def writeAll (bs : List Byte) : List (Option ℕ) → Files K → Option (Files K)
  | [], fs => some fs
  | none :: _, fs => some fs
  | some fd :: fds, fs => (writeFile fd bs fs).bind (writeAll bs fds)

/-- the loop over the standard input: the files and the standard output -/
def copy (fds : List (Option ℕ)) : List Chunk → Files K × List Byte → Option (Files K × List Byte)
  | [], s => some s
  | bs :: stdin, (fs, stdout) => (writeAll bs.1 fds fs).bind fun fs => copy fds stdin (fs, stdout ++ bs.1)

omit [DecidableEq K] in
def closeAll : List (Option ℕ) → Files K → Files K
  | [], fs => fs
  | none :: _, fs => fs
  | some fd :: fds, fs => closeAll fds (closeFile fd fs)

/-- `fds` has as many elements as there are arguments, with anything in them -/
def mytee (key : Name → K) (args : List Name) (fds : Vector (Option ℕ) args.length)
    (content : K → Option (List Byte)) (stdin : List Chunk) : Result K :=
  if args = [] ∨ args = [dashA] then .usage
  else
    let apnd := args.head? = some dashA
    let flags : Flags := if apnd then ⟨true, false⟩ else ⟨false, true⟩
    let (fs, fds, j) := openAll flags key args ⟨content, []⟩ fds.toList 0
    let fds := fds.set j none
    match copy fds stdin (fs, []) with
    | none => .failed
    | some (fs, stdout) => .done (closeAll fds fs) stdout

/-! ## What it is for -/

/-- the command line: whether the option is given, and the files -/
def parse : List Name → Bool × List Name
  | [] => (false, [])
  | name :: args => if name = dashA then (true, args) else (false, name :: args)

/-- all of the standard input -/
def input (stdin : List Chunk) : List Byte := (stdin.map Subtype.val).flatten

/-- the input is in the standard output and in each of the files, behind what was there with `-a`, and no other file
has been created or changed -/
def Copies (key : Name → K) (args : List Name) (content : K → Option (List Byte)) (stdin : List Chunk) :
    Result K → Prop
  | .done fs stdout => stdout = input stdin ∧
      (∀ name ∈ (parse args).2, fs.content (key name) =
        some ((if (parse args).1 then (content (key name)).getD [] else []) ++ input stdin)) ∧
      ∀ k, k ∉ (parse args).2.map key → fs.content k = content k
  | _ => False

/-! ## Opening -/

/-- what is open after the loop, and what it has done to the files -/
theorem openAll_spec (flags : Flags) (key : Name → K) (args : List Name) (fs : Files K) (fds : List (Option ℕ)) {j : ℕ}
    (hj : fs.descs.length = j) (hfds : fds.length = j + args.length) :
    ∃ fs', openAll flags key args fs fds j =
        (fs', fds.take j ++ (List.range' j args.length).map some, j + args.length) ∧
      fs'.descs = fs.descs ++ args.map (fun name => some ⟨key name, flags.append, 0⟩) ∧
      ∀ k, fs'.content k =
        if k ∈ args.map key then some (if flags.trunc then [] else fs.bytes k) else fs.content k := by
  induction args generalizing fs fds j with
  | nil =>
    rw [List.length_nil, Nat.add_zero] at hfds
    exact ⟨fs, by simp [openAll, hfds], by simp, by simp⟩
  | cons name args ih =>
    subst hj
    rw [List.length_cons] at hfds
    obtain ⟨fs', hrun, hdescs, hcontent⟩ := ih (openFile flags (key name) fs).1
      (fds.set fs.descs.length (some fs.descs.length)) (j := fs.descs.length + 1) (by simp [openFile])
      (by rw [List.length_set]; omega)
    refine ⟨fs', ?_, by simp [hdescs, openFile], fun k => ?_⟩
    · rw [take_set_list _ (by omega)] at hrun
      simp only [openAll, openFile] at hrun ⊢
      rw [hrun, List.length_cons, List.range'_succ]
      simp
      omega
    · rw [hcontent]
      by_cases hk : k = key name
      · subst hk
        cases htrunc : flags.trunc <;> simp [openFile, Files.bytes, htrunc]
      · simp [openFile, Files.bytes, hk]

/-- the elements of `fds` from the `n`-th on, of which there are `m` -/
abbrev fdsFrom (n m : ℕ) : List (Option ℕ) := (List.range' n m).map some

theorem fdsFrom_succ (n m : ℕ) : fdsFrom n (m + 1) = some n :: fdsFrom (n + 1) m := by
  rw [fdsFrom, List.range'_succ, List.map_cons]

/-! ## Copying without the option -/

/-- a description with an offset of its own -/
def descAt (offset : ℕ) (k : K) : Option (Desc K) := some ⟨k, false, offset⟩

/-- the files of `done` have got the bytes, and those of `todo` get them; a file may be among both -/
theorem writeAll_trunc (bs T : List Byte) (done : List K) {todo : List K} (fs : Files K)
    (hdescs : fs.descs = done.map (descAt (T.length + bs.length)) ++ todo.map (descAt T.length))
    (hdone : ∀ k ∈ done, fs.content k = some (T ++ bs)) (htodo : ∀ k ∈ todo, k ∉ done → fs.content k = some T) :
    ∃ fs', writeAll bs (fdsFrom done.length todo.length) fs = some fs' ∧
      fs'.descs = (done ++ todo).map (descAt (T.length + bs.length)) ∧
      (∀ k ∈ done ++ todo, fs'.content k = some (T ++ bs)) ∧ ∀ k, k ∉ todo → fs'.content k = fs.content k := by
  induction todo generalizing done fs with
  | nil => exact ⟨fs, rfl, by simpa using hdescs, by simpa using hdone, fun _ _ => rfl⟩
  | cons k todo ih =>
    have hdesc : fs.descs[done.length]? = some (some ⟨k, false, T.length⟩) := by
      rw [hdescs, List.getElem?_append_right (by simp)]
      simp [descAt]
    -- a file that has got the bytes gets them again at the same place
    have hbytes : writeAt (fs.bytes k) T.length bs = T ++ bs := by
      by_cases hk : k ∈ done
      · rw [Files.bytes, hdone k hk, Option.getD_some, writeAt_again]
      · rw [Files.bytes, htodo k List.mem_cons_self hk, Option.getD_some, writeAt_end]
    have hset : fs.descs.set done.length (descAt (T.length + bs.length) k) =
        (done ++ [k]).map (descAt (T.length + bs.length)) ++ todo.map (descAt T.length) := by
      simp [hdescs]
    have hdone' : ∀ x ∈ done ++ [k], Function.update fs.content k (some (T ++ bs)) x = some (T ++ bs) := by
      intro x hx
      by_cases hxk : x = k
      · rw [hxk, Function.update_self]
      · rw [Function.update_of_ne hxk]
        exact hdone x ((List.mem_append.1 hx).resolve_right (by simpa using hxk))
    have htodo' : ∀ x ∈ todo, x ∉ done ++ [k] → Function.update fs.content k (some (T ++ bs)) x = some T := by
      intro x hx hnot
      rw [List.mem_append, not_or] at hnot
      rw [Function.update_of_ne (by simpa using hnot.2)]
      exact htodo x (List.mem_cons_of_mem _ hx) hnot.1
    obtain ⟨fs', hrun, hdescs', hall, hother⟩ := ih (done ++ [k])
      ⟨Function.update fs.content k (some (T ++ bs)), fs.descs.set done.length (descAt (T.length + bs.length) k)⟩
      hset hdone' htodo'
    refine ⟨fs', ?_, by simpa using hdescs', by simpa using hall, fun x hx => ?_⟩
    · rw [List.length_cons, fdsFrom_succ, writeAll, writeFile_eq hdesc]
      simpa [hbytes, descAt] using hrun
    · obtain ⟨hne, hx⟩ := List.ne_and_not_mem_of_not_mem_cons hx
      exact (hother x hx).trans (Function.update_of_ne hne _ _)

/-- without the option: every file gets the input -/
theorem copy_trunc {keys : List K} (T : List Byte) {fs : Files K} (stdin : List Chunk) (stdout : List Byte)
    (hdescs : fs.descs = keys.map (descAt T.length)) (hcontent : ∀ k ∈ keys, fs.content k = some T) :
    ∃ fs', copy (fdsFrom 0 keys.length) stdin (fs, stdout) = some (fs', stdout ++ input stdin) ∧
      (∀ k ∈ keys, fs'.content k = some (T ++ input stdin)) ∧ ∀ k, k ∉ keys → fs'.content k = fs.content k := by
  induction stdin generalizing fs T stdout with
  | nil => exact ⟨fs, by simp [copy, input], by simpa [input] using hcontent, fun _ _ => rfl⟩
  | cons bs stdin ih =>
    obtain ⟨fs₁, hrun₁, hdescs₁, hall₁, hother₁⟩ := writeAll_trunc bs.1 T [] fs hdescs (by simp)
      (fun k hk _ => hcontent k hk)
    obtain ⟨fs₂, hrun₂, hall₂, hother₂⟩ := ih (T ++ bs.1) (stdout ++ bs.1) (by simpa using hdescs₁)
      (by simpa using hall₁)
    have hinput : input (bs :: stdin) = bs.1 ++ input stdin := rfl
    refine ⟨fs₂, ?_, fun k hk => by rw [hall₂ k hk, hinput, List.append_assoc], fun k hk => ?_⟩
    · rw [List.length_nil] at hrun₁
      rw [copy, hrun₁, Option.bind_some, hrun₂, hinput, List.append_assoc]
    · rw [hother₂ k hk, hother₁ k hk]

/-! ## Copying with the option -/

/-- which files are open, all of them in append mode -/
def Appending (keys : List K) (fs : Files K) : Prop :=
  fs.descs.map (Option.map fun d => (d.file, d.append)) = keys.map fun k => some (k, true)

/-- a file gets the bytes once for each of its descriptions -/
theorem writeAll_append (bs : List Byte) (done : List K) {todo : List K} {fs : Files K}
    (h : Appending (done ++ todo) fs) :
    ∃ fs', writeAll bs (fdsFrom done.length todo.length) fs = some fs' ∧ Appending (done ++ todo) fs' ∧
      ∀ k, (fs'.bytes k).length = (fs.bytes k).length + todo.count k * bs.length := by
  induction todo generalizing done fs with
  | nil => exact ⟨fs, rfl, h, by simp⟩
  | cons k todo ih =>
    obtain ⟨d, hdesc, rfl, happ⟩ : ∃ d, fs.descs[done.length]? = some (some d) ∧ d.file = k ∧ d.append = true := by
      have hat := congrArg (fun l => l[done.length]?) h
      simpa [List.getElem?_map] using hat
    have hset : Appending ((done ++ [d.file]) ++ todo)
        ⟨Function.update fs.content d.file (some (fs.bytes d.file ++ bs)),
          fs.descs.set done.length (some { d with offset := (fs.bytes d.file).length + bs.length })⟩ := by
      rw [Appending, List.map_set, h]
      simp [happ]
    obtain ⟨fs', hrun, happ', hlen⟩ := ih _ hset
    refine ⟨fs', ?_, by simpa using happ', fun k => ?_⟩
    · rw [List.length_cons, fdsFrom_succ, writeAll, writeFile_eq hdesc]
      simpa [happ, writeAt_end] using hrun
    · rw [hlen, List.count_cons]
      by_cases hk : d.file = k
      · subst hk
        simp [Files.bytes]
        ring
      · simp [Files.bytes, Function.update_of_ne (Ne.symm hk), hk]

/-- with the option: by how much each file grows -/
theorem copy_append {keys : List K} {fs : Files K} (stdin : List Chunk) (stdout : List Byte) (h : Appending keys fs) :
    ∃ fs', copy (fdsFrom 0 keys.length) stdin (fs, stdout) = some (fs', stdout ++ input stdin) ∧
      ∀ k, (fs'.bytes k).length = (fs.bytes k).length + keys.count k * (input stdin).length := by
  induction stdin generalizing fs stdout with
  | nil => exact ⟨fs, by simp [copy, input], by simp [input]⟩
  | cons bs stdin ih =>
    obtain ⟨fs₁, hrun₁, happ₁, hlen₁⟩ := writeAll_append bs.1 [] h
    obtain ⟨fs₂, hrun₂, hlen₂⟩ := ih (stdout ++ bs.1) happ₁
    have hinput : input (bs :: stdin) = bs.1 ++ input stdin := rfl
    refine ⟨fs₂, ?_, fun k => ?_⟩
    · rw [List.length_nil] at hrun₁
      rw [copy, hrun₁, Option.bind_some, hrun₂, hinput, List.append_assoc]
    · rw [hlen₂, hlen₁, hinput, List.length_append]
      ring

/-! ## The run -/

omit [DecidableEq K] in
theorem closeAll_content (fds : List (Option ℕ)) (fs : Files K) : (closeAll fds fs).content = fs.content := by
  induction fds generalizing fs with
  | nil => rfl
  | cons fd fds ih =>
    cases fd with
    | none => rfl
    | some fd => exact ih (closeFile fd fs)

/-- the run from the opened files on -/
theorem mytee_eq (key : Name → K) {args : List Name} (fds : Vector (Option ℕ) args.length)
    (content : K → Option (List Byte)) (stdin : List Chunk) (hargs : ¬ (args = [] ∨ args = [dashA])) (apnd : Bool)
    (happ : args.head? = some dashA ↔ apnd = true) :
    ∃ fs : Files K, fs.descs = args.map (fun name => some ⟨key name, apnd, 0⟩) ∧
      (∀ k, fs.content k =
        if k ∈ args.map key then some (if apnd then (content k).getD [] else []) else content k) ∧
      mytee key args fds content stdin = match copy (fdsFrom 0 args.length) stdin (fs, []) with
        | none => .failed
        | some (fs, stdout) => .done (closeAll (fdsFrom 0 args.length) fs) stdout := by
  have hflags : (if args.head? = some dashA then (⟨true, false⟩ : Flags) else ⟨false, true⟩) = ⟨apnd, !apnd⟩ := by
    cases apnd <;> simp_all
  obtain ⟨fs, hrun, hdescs, hcontent⟩ := openAll_spec ⟨apnd, !apnd⟩ key args ⟨content, []⟩ fds.toList
    (j := 0) rfl (by simp)
  refine ⟨fs, by simpa using hdescs, fun k => ?_, ?_⟩
  · rw [hcontent k]
    cases apnd <;> simp [Files.bytes]
  · rw [mytee, if_neg hargs]
    simp only [hflags, hrun, List.take_zero, List.nil_append, Nat.zero_add]
    -- the sentinel has no place in `fds`
    rw [List.set_eq_of_length_le (by simp)]

theorem parse_dashA (files : List Name) : parse (dashA :: files) = (true, files) := by simp [parse]

theorem parse_of_ne {name : Name} (h : name ≠ dashA) (args : List Name) :
    parse (name :: args) = (false, name :: args) := by
  simp [parse, h]

theorem input_pos {stdin : List Chunk} (h : stdin ≠ []) : 0 < (input stdin).length := by
  obtain ⟨bs, stdin, rfl⟩ := List.exists_cons_of_ne_nil h
  have := List.length_pos_of_ne_nil bs.2.1
  simp only [input, List.map_cons, List.flatten_cons, List.length_append]
  omega

/-- without the option -/
theorem copies_plain (key : Name → K) {name : Name} {args : List Name} (fds : Vector (Option ℕ) (name :: args).length)
    (content : K → Option (List Byte)) (stdin : List Chunk) (hname : name ≠ dashA) :
    Copies key (name :: args) content stdin (mytee key (name :: args) fds content stdin) := by
  obtain ⟨fs, hdescs, hcontent, hrun⟩ := mytee_eq key fds content stdin (by simp [hname]) false
    (by simp [hname])
  have hopen : fs.descs = ((name :: args).map key).map (descAt ([] : List Byte).length) := by
    simpa [descAt, Function.comp_def] using hdescs
  have hmem : ∀ k ∈ (name :: args).map key, fs.content k = some [] := fun k hk => by rw [hcontent, if_pos hk]; rfl
  obtain ⟨fs', hcopy, hall, hother⟩ := copy_trunc [] stdin [] hopen hmem
  rw [List.length_map] at hcopy
  rw [hrun, hcopy, Copies, parse_of_ne hname, closeAll_content]
  refine ⟨rfl, fun n hn => hall _ (List.mem_map_of_mem hn), fun k hk => ?_⟩
  rw [hother k hk, hcontent, if_neg hk]

/-- with the option -/
theorem copies_dashA (key : Name → K) {files : List Name} (fds : Vector (Option ℕ) (dashA :: files).length)
    (content : K → Option (List Byte)) (stdin : List Chunk) (hfiles : files ≠ []) :
    Copies key (dashA :: files) content stdin (mytee key (dashA :: files) fds content stdin) ↔
      stdin = [] ∧ ((content (key dashA)).isSome ∨ key dashA ∈ files.map key) := by
  obtain ⟨fs, hdescs, hcontent, hrun⟩ := mytee_eq key fds content stdin (by simp [hfiles]) true (by simp)
  have hopen : Appending ((dashA :: files).map key) fs := by
    rw [Appending, hdescs]
    simp [Function.comp_def]
  have hin : ∀ name ∈ dashA :: files, fs.content (key name) = some ((content (key name)).getD []) := fun name hn => by
    rw [hcontent, if_pos (List.mem_map_of_mem hn)]
    rfl
  obtain ⟨fs', hcopy, hlen⟩ := copy_append stdin [] hopen
  rw [List.length_map] at hcopy
  rw [hrun, hcopy, Copies, parse_dashA, closeAll_content]
  simp only [if_true]
  by_cases hstdin : stdin = []
  · -- nothing is written
    subst hstdin
    obtain rfl : fs = fs' := by
      simp only [copy, Option.some_inj, Prod.mk.injEq] at hcopy
      exact hcopy.1
    rw [and_iff_right rfl]
    constructor
    · rintro ⟨-, -, hother⟩
      by_cases hmem : key dashA ∈ files.map key
      · exact .inr hmem
      · left
        rw [← hother _ hmem, hin dashA List.mem_cons_self]
        rfl
    · intro hdash
      refine ⟨rfl, fun name hname => ?_, fun k hk => ?_⟩
      · rw [hin name (List.mem_cons_of_mem _ hname)]
        simp [input]
      · by_cases hkey : k = key dashA
        · subst hkey
          obtain ⟨old, hold⟩ := Option.isSome_iff_exists.1 (hdash.resolve_right hk)
          rw [hin dashA List.mem_cons_self, hold, Option.getD_some]
        · rw [hcontent, if_neg (by simpa [hkey] using hk)]
  · -- the file `-a` grows by more than it should
    refine iff_of_false ?_ fun h => hstdin h.1
    rintro ⟨-, hnamed, hother⟩
    have hpos := input_pos hstdin
    have hgrow := hlen (key dashA)
    have hold : fs.bytes (key dashA) = (content (key dashA)).getD [] := by
      rw [Files.bytes, hin dashA List.mem_cons_self, Option.getD_some]
    rw [List.map_cons, List.count_cons_self, hold, Nat.add_mul, Nat.one_mul] at hgrow
    by_cases hmem : key dashA ∈ files.map key
    · have hcount : (input stdin).length ≤ (files.map key).count (key dashA) * (input stdin).length :=
        Nat.le_mul_of_pos_left _ (List.count_pos_iff.2 hmem)
      obtain ⟨name, hname, hkey⟩ := List.mem_map.1 hmem
      have hnew := hnamed name hname
      rw [hkey] at hnew
      rw [Files.bytes, hnew, Option.getD_some, List.length_append] at hgrow
      omega
    · rw [Files.bytes, hother _ hmem] at hgrow
      omega

/-- **The copies.** For every command line with at least one file, every file system and every input in any chunks: the
standard output and the named files get the input, and no other file is created or changed, if and only if the option is
not given, or the input is empty and the file `-a` exists already or is one of the named files. -/
theorem mytee_copies (key : Name → K) {args : List Name} (fds : Vector (Option ℕ) args.length)
    (content : K → Option (List Byte)) (stdin : List Chunk) (hfiles : (parse args).2 ≠ []) :
    Copies key args content stdin (mytee key args fds content stdin) ↔
      ((parse args).1 = true →
        stdin = [] ∧ ((content (key dashA)).isSome ∨ key dashA ∈ (parse args).2.map key)) := by
  cases args with
  | nil => exact absurd rfl hfiles
  | cons name args =>
    by_cases hname : name = dashA
    · subst hname
      rw [parse_dashA] at hfiles ⊢
      rw [forall_prop_of_true rfl]
      exact copies_dashA key fds content stdin hfiles
    · rw [parse_of_ne hname]
      exact iff_of_true (copies_plain key fds content stdin hname) fun h => absurd h Bool.false_ne_true

/-- `mytee a`, where `a` exists -/
theorem mytee_copies_one :
    Copies (fun name => name) [[97]] (fun name => if name = [97] then some [1, 2] else none) [⟨[7, 8], by decide⟩]
      (mytee (fun name => name) [[97]] (Vector.replicate _ none) (fun name => if name = [97] then some [1, 2] else none)
        [⟨[7, 8], by decide⟩]) :=
  (mytee_copies _ _ _ _ (by decide)).2 fun h => absurd h (by decide)

/-- `mytee -a a` makes a file `-a` -/
theorem not_mytee_copies :
    ¬ ∀ (K : Type) (_ : DecidableEq K) (key : Name → K) (args : List Name) (fds : Vector (Option ℕ) args.length)
      (content : K → Option (List Byte)) (stdin : List Chunk), (parse args).2 ≠ [] → (parse args).2.Nodup →
      Copies key args content stdin (mytee key args fds content stdin) := by
  intro h
  have hcopies := h Name inferInstance (fun name => name) [dashA, [97]] (Vector.replicate _ none) (fun _ => none) []
    (by decide) (by decide)
  rw [copies_dashA _ _ _ _ (by decide)] at hcopies
  exact absurd hcopies.2 (by decide)

end OsPractice.Mytee
