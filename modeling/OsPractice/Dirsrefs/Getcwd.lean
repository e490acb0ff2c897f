/-
`getcwd` (`dirsrefs/getcwd.c`). In each round it goes to the parent directory and looks there for an entry that `stat`
finds to be the directory it comes from; it puts the entry's name before the path it has so far. At the root it copies
the path, and changes back to it.

`stat` follows links. So an entry that is a link to nowhere ends the program, if `readdir` returns it before the entry
that is looked for; and a link to the directory gives its own name to the path. The path still leads to where the
program has started, if it is not cut off and does not go over too many links.

The strings `path` and `tmp` are lists of bytes, with the bound that `snprintf` has; `buf` is the memory that the result
is copied to.

Results:
- `getcwd_spec`: what `getcwd` returns, for every directory;
- `getcwd_iff`: when that is the path without links;
- `getcwd_restores_iff`: if all entries can be looked at, when the result leads to the directory and that is the working
  directory.
-/
import OsPractice.Core.CString
import OsPractice.Core.DirTree

namespace OsPractice.Getcwd

open Bytes CString DirTree DirTree.Fs

/-! ## The program -/

/-- `snprintf(tmp, PATH_MAX, "/%s%s", d_name, path)` -/
def addName (d_name path : List Byte) : List Byte := (slash :: (d_name ++ path)).take (PATH_MAX - 1)

/-- the loop over the entries of the parent directory: the path after it, `none` if the program has ended -/
def scan (fs : Fs) (cwd cst : Id) (path : List Byte) : List Name → Option (List Byte)
  | [] => some path
  | d_name :: rest =>
    if d_name = dot ∨ d_name = dotdot then scan fs cwd cst path rest
    else
      match fs.resolve cwd d_name with
      | none => none
      | some st => if st = cst then some (addName d_name path) else scan fs cwd cst path rest

inductive Climb where
  | running
  | exited
  /-- the loop has been left after so many rounds -/
  | left (rounds : ℕ) (cwd : Id) (path : List Byte)
  deriving DecidableEq, Repr

/-- the loop, for at most `fuel` rounds -/
def climb (fs : Fs) (root : Id) : ℕ → ℕ → Id → Id → List Byte → Climb
  | 0, _, _, _, _ => .running
  | fuel + 1, rounds, cst, cwd, path =>
    match fs.resolve cwd dotdot with
    | none => .exited
    | some pst =>
      if cst = root then .left rounds cwd path
      else if fs.isDir pst = false then .exited -- `opendir`
      else
        let cwd := fs.chdir cwd dotdot
        match scan fs cwd cst path (fs.readdir pst) with
        | none => .exited
        | some path => climb fs root fuel (rounds + 1) pst cwd path

inductive Result where
  | running
  | exited
  /-- the rounds of the loop, `buf`, and the working directory -/
  | returned (rounds : ℕ) (buf : List Byte) (cwd : Id)
  deriving DecidableEq, Repr

def getcwd (fs : Fs) (fuel : ℕ) (cwd : Id) (buf : List Byte) (size : ℕ) : Result :=
  match fs.resolve cwd [slash], fs.resolve cwd dot with
  | some root, some cst =>
    match climb fs root fuel 0 cst cwd [] with
    | .running => .running
    | .exited => .exited
    | .left rounds cwd path =>
      let path := if path.length = 0 then [slash] else path
      .returned rounds (strncpy buf path size) (fs.chdir cwd path)
  | _, _ => .exited

/-! ## The entries that are found -/

variable {fs : Fs} {d c : Id} {n m : Name} {ns ms : List Name} {path : List Byte}

/-- an entry of `d` that ends the search for `c`: `stat` fails, or finds `c` -/
def Ends (fs : Fs) (d c : Id) (m : Name) : Prop :=
  m ≠ dot ∧ m ≠ dotdot ∧ (fs.step d m = none ∨ fs.step d m = some c)

instance (fs : Fs) (d c : Id) (m : Name) : Decidable (Ends fs d c m) := inferInstanceAs (Decidable (_ ∧ _))

/-- the names that are put into the path, from the root to `c`, which is `k` levels below it; `none` if `stat` fails -/
def namesFound (fs : Fs) : ℕ → Id → Option (List Name)
  | 0, _ => some []
  | k + 1, c =>
    match (fs.readdir (fs.parent c)).find? (Ends fs (fs.parent c) c) with
    | none => none
    | some m => if fs.step (fs.parent c) m = none then none else (namesFound fs k (fs.parent c)).map (· ++ [m])

/-- in directory `d`, no entry that is a link to `c` or that `stat` fails on comes before the entry `n` -/
def Clear (fs : Fs) (d c : Id) (n : Name) : Prop :=
  ∀ m ∈ (fs.readdir d).takeWhile (· ≠ n), m ≠ dot → m ≠ dotdot → ∃ i, fs.step d m = some i ∧ i ≠ c

theorem scan_eq (hd : fs.isDir d = true) (c : Id) (path : List Byte) (l : List Name) (hl : l ⊆ fs.readdir d) :
    scan fs d c path l =
      match l.find? (Ends fs d c) with
      | none => some path
      | some m => if fs.step d m = none then none else some (addName m path) := by
  induction l with
  | nil => rfl
  | cons m l ih =>
    have hrest := ih fun x hx => hl (List.mem_cons_of_mem _ hx)
    by_cases hdots : m = dot ∨ m = dotdot
    · have hends : ¬ Ends fs d c m := fun h => hdots.elim h.1 h.2.1
      rw [scan, if_pos hdots, List.find?_cons_of_neg (by simpa using hends), hrest]
    · obtain ⟨h1, h2⟩ := not_or.1 hdots
      have hsome := (((fs.mem_readdir hd).1 (hl List.mem_cons_self)).resolve_left h1).resolve_left h2
      obtain ⟨x, hx⟩ := Option.isSome_iff_exists.1 hsome
      have hv := fs.name_valid hx
      rw [scan, if_neg hdots, resolve_name hv.ne_nil hv.noSlash hv.fits]
      cases hst : fs.step d m with
      | none =>
        have hends : Ends fs d c m := ⟨h1, h2, .inl hst⟩
        rw [List.find?_cons_of_pos (by simpa using hends)]
        simp [hst]
      | some i =>
        by_cases hi : i = c
        · have hends : Ends fs d c m := ⟨h1, h2, .inr (by rw [hst, hi])⟩
          rw [List.find?_cons_of_pos (by simpa using hends)]
          simp [hst, hi]
        · have hends : ¬ Ends fs d c m := by
            rintro ⟨-, -, h | h⟩
            · rw [hst] at h
              cases h
            · rw [hst] at h
              exact hi (Option.some_inj.1 h)
          rw [List.find?_cons_of_neg (by simpa using hends)]
          simp only [if_neg hi]
          exact hrest

/-- one round, from a directory `c` with an entry in `d` -/
theorem climb_entry (hd : fs.isDir d = true) (hn : fs.lookup d n = some (.inode c)) (hc : fs.isDir c = true)
    (fuel rounds : ℕ) (path : List Byte) :
    climb fs fs.root (fuel + 1) rounds c c path =
      match (fs.readdir d).find? (Ends fs d c) with
      | none => climb fs fs.root fuel (rounds + 1) d d path
      | some m => if fs.step d m = none then .exited else climb fs fs.root fuel (rounds + 1) d d (addName m path) := by
  have hpar := fs.parent_eq hn hc
  have hdots : fs.resolve c dotdot = some d := by
    rw [resolve_name (by decide) (by decide) (by decide), step_dotdot hc, hpar]
  have hchdir : fs.chdir c dotdot = d := by simp [chdir, hdots, hd]
  rw [climb, hdots]
  simp only [if_neg (fs.ne_root hn hc), hd, hchdir, scan_eq hd c path _ (List.Subset.refl _)]
  rw [if_neg (by simp)]
  cases (fs.readdir d).find? (Ends fs d c) with
  | none => rfl
  | some m => by_cases hst : fs.step d m = none <;> simp [hst]

/-- the search ends: the directory has an entry -/
theorem find_isSome (hd : fs.isDir d = true) (hn : fs.lookup d n = some (.inode c)) :
    ∃ m, (fs.readdir d).find? (Ends fs d c) = some m ∧ Ends fs d c m := by
  have hv := fs.name_valid hn
  have hmem : n ∈ fs.readdir d := (fs.mem_readdir hd).2 (.inr (.inr (by simp [hn])))
  have hends : Ends fs d c n := ⟨hv.ne_dot, hv.ne_dotdot, .inr (step_inode hd hn)⟩
  obtain ⟨m, hm⟩ := Option.isSome_iff_exists.1
    (List.find?_isSome.2 ⟨n, hmem, by simpa using hends⟩ : ((fs.readdir d).find? (Ends fs d c)).isSome)
  exact ⟨m, hm, by simpa using List.find?_some hm⟩

/-- the first element with a property, in a list with an element `a` that has it -/
theorem find_eq_iff {α : Type} [DecidableEq α] {q : α → Prop} [DecidablePred q] {l : List α} {a : α} (hmem : a ∈ l)
    (ha : q a) : l.find? q = some a ↔ ∀ b ∈ l.takeWhile (· ≠ a), ¬ q b := by
  induction l with
  | nil => simp at hmem
  | cons b l ih =>
    by_cases hb : b = a
    · subst hb
      simp [ha]
    · have ih := ih ((List.mem_cons.1 hmem).resolve_left (Ne.symm hb))
      rw [List.takeWhile_cons_of_pos (by simpa using hb)]
      by_cases hq : q b
      · rw [List.find?_cons_of_pos (by simpa using hq)]
        simp [hb, hq]
      · rw [List.find?_cons_of_neg (by simpa using hq), ih]
        simp [hq]

theorem clear_iff (hd : fs.isDir d = true) (hn : fs.lookup d n = some (.inode c)) :
    (fs.readdir d).find? (Ends fs d c) = some n ↔ Clear fs d c n := by
  have hv := fs.name_valid hn
  have hmem : n ∈ fs.readdir d := (fs.mem_readdir hd).2 (.inr (.inr (by simp [hn])))
  rw [find_eq_iff hmem ⟨hv.ne_dot, hv.ne_dotdot, .inr (step_inode hd hn)⟩]
  refine forall₂_congr fun m _ => ?_
  simp only [Ends, not_and, not_or]
  refine imp_congr_right fun _ => imp_congr_right fun _ => ?_
  cases fs.step d m with
  | none => simp
  | some i => simp

theorem namesFound_entry (hd : fs.isDir d = true) (hn : fs.lookup d n = some (.inode c)) (hc : fs.isDir c = true)
    (k : ℕ) : ∃ m, Ends fs d c m ∧ (fs.readdir d).find? (Ends fs d c) = some m ∧
      namesFound fs (k + 1) c = if fs.step d m = none then none else (namesFound fs k d).map (· ++ [m]) := by
  obtain ⟨m, hm, hends⟩ := find_isSome hd hn
  refine ⟨m, hends, hm, ?_⟩
  rw [namesFound, fs.parent_eq hn hc, hm]

theorem take_append_take (xs ys : List Byte) (k : ℕ) : (xs ++ ys.take k).take k = (xs ++ ys).take k := by
  rw [List.take_append, List.take_append, List.take_take, min_eq_left (Nat.sub_le _ _)]

theorem addName_length (m path : List Byte) : (addName m path).length ≤ PATH_MAX - 1 := by
  rw [addName, List.length_take]
  exact min_le_left _ _

/-- the whole loop -/
theorem climb_spec (h : fs.RealPath ns d) (fuel rounds : ℕ) (path : List Byte) (hf : ns.length < fuel)
    (hp : path.length ≤ PATH_MAX - 1) : climb fs fs.root fuel rounds d d path =
      match namesFound fs ns.length d with
      | none => .exited
      | some ms => .left (rounds + ns.length) fs.root ((pathOf ms ++ path).take (PATH_MAX - 1)) := by
  -- the loop goes towards the root, so what it has put into the path is that of the directories below
  induction h generalizing fuel rounds path with
  | root =>
    obtain ⟨f, rfl⟩ := Nat.exists_eq_succ_of_ne_zero (Nat.ne_of_gt hf)
    have hdots : fs.resolve fs.root dotdot = some fs.root := by
      rw [resolve_name (by decide) (by decide) (by decide), step_dotdot fs.root_isDir, fs.parent_root]
    rw [climb, hdots]
    simp [namesFound, pathOf, List.take_of_length_le hp]
  | @entry ns d c n h hn hc ih =>
    obtain ⟨f, rfl⟩ := Nat.exists_eq_succ_of_ne_zero (Nat.ne_of_gt (Nat.zero_lt_of_lt hf))
    rw [List.length_append, List.length_singleton] at hf ⊢
    obtain ⟨m, -, hfind, hnames⟩ := namesFound_entry h.isDir hn hc ns.length
    rw [climb_entry h.isDir hn hc, hfind, hnames]
    by_cases hst : fs.step d m = none
    · simp [hst]
    · simp only [hst, if_false]
      rw [ih f (rounds + 1) (addName m path) (by omega) (addName_length m path)]
      cases namesFound fs ns.length d with
      | none => rfl
      | some ms =>
        have hrounds : rounds + 1 + ns.length = rounds + (ns.length + 1) := by omega
        have hpath : pathOf ms ++ slash :: (m ++ path) = pathOf (ms ++ [m]) ++ path := by simp [pathOf]
        simp only [Option.map_some, addName, take_append_take, hrounds, hpath]

/-- the path of these names as it is shown: the root is `/` -/
def shown (ns : List Name) : List Byte := if ns = [] then [slash] else pathOf ns

/-- `getcwd`, from any directory -/
theorem getcwd_spec (h : fs.RealPath ns d) (fuel : ℕ) (hf : ns.length < fuel) (buf : List Byte) (size : ℕ) :
    getcwd fs fuel d buf size =
      match namesFound fs ns.length d with
      | none => .exited
      | some ms => .returned ns.length (strncpy buf ((shown ms).take (PATH_MAX - 1)) size)
          (fs.chdir fs.root ((shown ms).take (PATH_MAX - 1))) := by
  have hdot : fs.resolve d dot = some d := by
    rw [resolve_name (by decide) (by decide) (by decide), step_dot h.isDir]
  rw [getcwd, resolve_root, hdot]
  simp only [climb_spec h fuel 0 [] hf (Nat.zero_le _)]
  cases namesFound fs ns.length d with
  | none => rfl
  | some ms =>
    have hshown : (if ((pathOf ms ++ []).take (PATH_MAX - 1)).length = 0 then [slash]
        else (pathOf ms ++ []).take (PATH_MAX - 1)) = (shown ms).take (PATH_MAX - 1) := by
      cases ms with
      | nil => rfl
      | cons m ms => simp [shown, PATH_MAX]
    simp only [hshown, zero_add]

/-- the names lead from the root to the directory -/
theorem namesFound_leads (h : fs.RealPath ns d) {ms : List Name} (hms : namesFound fs ns.length d = some ms) :
    ms.foldlM fs.step fs.root = some d ∧ ms.length = ns.length ∧ ∀ m ∈ ms, ValidName m := by
  induction h generalizing ms with
  | root =>
    cases hms
    exact ⟨rfl, rfl, by simp⟩
  | @entry ns d c n h hn hc ih =>
    obtain ⟨m, ⟨h1, h2, hends⟩, -, hnames⟩ := namesFound_entry h.isDir hn hc ns.length
    rw [List.length_append, List.length_singleton, hnames] at hms
    split_ifs at hms with hst
    have hst := hends.resolve_left hst
    obtain ⟨ms, hfound, rfl⟩ := Option.map_eq_some_iff.1 hms
    obtain ⟨hlead, hlen, hvalid⟩ := ih hfound
    refine ⟨by simp [List.foldlM_append, hlead, hst], by simp [hlen], fun x hx => ?_⟩
    rcases List.mem_append.1 hx with hx | hx
    · exact hvalid x hx
    · rw [List.mem_singleton.1 hx]
      exact step_valid hst h1 h2

theorem shown_noNul (h : ∀ n ∈ ns, ValidName n) : 0 ∉ shown ns := by
  unfold shown
  split_ifs
  · decide
  · exact pathOf_noNul h

/-! ## A small tree -/

def top : Id := ⟨0, 1⟩
def sub : Id := ⟨0, 2⟩

/-- `"d"` and `"x"` -/
def nameD : Name := [100]
def nameX : Name := [120]

/-- the entry `d` of the root is a directory, and the entry `x` before it is a link -/
def linkTree (target : Option Id) : Fs where
  root := top
  isDir i := i = top ∨ i = sub
  parent _ := top
  lookup i n :=
    if i = top ∧ n = nameD then some (.inode sub)
    else if i = top ∧ n = nameX then some (.link target 0) else none
  readdir i := if i = top then [nameX, nameD, dot, dotdot] else [dot, dotdot]
  root_isDir := by decide
  parent_root := rfl
  parent_isDir _ := by decide
  name_valid {d n x} h := by
    split_ifs at h with h1 h2
    · rw [h1.2]
      constructor <;> decide
    · rw [h2.2]
      constructor <;> decide
  parent_eq {d n c} h _ := by
    split_ifs at h with h1
    · exact h1.1.symm
    · cases h
  ne_root {d n c} h _ := by
    split_ifs at h with h1
    · cases h
      decide
    · cases h
  name_unique {d n m c} hn hm _ := by
    split_ifs at hn with h1
    · split_ifs at hm with h2
      · rw [h1.2, h2.2]
      · cases hm
    · cases hn
  mem_readdir {d n} _ := by
    have hne : nameX ≠ nameD := by decide
    by_cases hd : d = top
    · by_cases h1 : n = nameD <;> by_cases h2 : n = nameX <;> simp [hd, h1, h2, hne]
    · simp [hd]

theorem linkTree_path (target : Option Id) : (linkTree target).RealPath [nameD] sub :=
  RealPath.root.entry (n := nameD) rfl rfl

/-! ## The path without links -/

/-- a path without links, on which no entry before the one of each directory stops the search -/
inductive ClearPath (fs : Fs) : List Name → Id → Prop where
  | root : ClearPath fs [] fs.root
  | entry {ns : List Name} {d c : Id} {n : Name} (h : ClearPath fs ns d) (hn : fs.lookup d n = some (.inode c))
      (hc : fs.isDir c = true) (hclear : Clear fs d c n) : ClearPath fs (ns ++ [n]) c

theorem namesFound_real (h : fs.RealPath ns d) : namesFound fs ns.length d = some ns ↔ ClearPath fs ns d := by
  induction h with
  | root => exact ⟨fun _ => .root, fun _ => rfl⟩
  | @entry ns d c n h hn hc ih =>
    obtain ⟨m, -, hfind, hnames⟩ := namesFound_entry h.isDir hn hc ns.length
    have hclear := clear_iff h.isDir hn
    have hst := step_inode h.isDir hn
    rw [List.length_append, List.length_singleton, hnames]
    constructor
    · intro hms
      split_ifs at hms
      obtain ⟨ms, hfound, he⟩ := Option.map_eq_some_iff.1 hms
      obtain ⟨rfl, hm⟩ := List.append_inj' he rfl
      obtain rfl : m = n := by simpa using hm
      exact (ih.1 hfound).entry hn hc (hclear.1 hfind)
    · intro hpath
      generalize hns : ns ++ [n] = ns' at hpath
      cases hpath with
      | root => simp at hns
      | entry hpath hn' _ hcl =>
        obtain rfl := (fs.parent_eq hn hc).symm.trans (fs.parent_eq hn' hc)
        obtain ⟨rfl, -⟩ := List.append_inj' hns rfl
        obtain rfl := fs.name_unique hn hn' hc
        have hm : m = n := Option.some_inj.1 (hfind.symm.trans (hclear.2 hcl))
        rw [hm, if_neg (by simp [hst]), ih.2 hpath]
        rfl

theorem shown_cut (hm : ∀ n ∈ ms, ValidName n) (hn : ∀ n ∈ ns, ValidName n) (hlen : ms.length = ns.length)
    (hmax : (shown ns).length < PATH_MAX) : (shown ms).take (PATH_MAX - 1) = shown ns ↔
      ms = ns ∨ (shown ns).length = PATH_MAX - 1 ∧ shown ns <+: shown ms := by
  constructor
  · intro h
    rcases le_or_gt (shown ms).length (PATH_MAX - 1) with hle | hgt
    · left
      rw [List.take_of_length_le hle] at h
      by_cases hns : ns = []
      · rw [hns] at hlen ⊢
        exact List.length_eq_zero_iff.1 hlen
      · have hms : ms ≠ [] := fun he => hns (List.length_eq_zero_iff.1 (by rw [← hlen, he]; rfl))
        rw [shown, shown, if_neg hms, if_neg hns] at h
        exact pathOf_injective hm hn h
    · right
      have hk : (shown ns).length = PATH_MAX - 1 := by
        rw [← h, List.length_take, min_eq_left hgt.le]
      exact ⟨hk, h ▸ List.take_prefix _ _⟩
  · rintro (rfl | ⟨hk, hpre⟩)
    · exact List.take_of_length_le (Nat.le_sub_one_of_lt hmax)
    · rw [← hk]
      exact (List.prefix_iff_eq_take.1 hpre).symm

/-- **The real path.** For every tree, every order of the entries and every directory: `getcwd` returns, and what it
returns is the path without links, exactly when no entry before the one of each directory is a link to it or one that
`stat` fails on. The exception is a path of exactly `PATH_MAX - 1` bytes that the path over the links continues, as
`snprintf` cuts the rest off. -/
theorem getcwd_iff (fs : Fs) {ns : List Name} {d : Id} (h : fs.RealPath ns d) {size : ℕ} (buf : List Byte)
    (hmax : (shown ns).length < PATH_MAX) (hsize : (shown ns).length < size) {fuel : ℕ} (hf : ns.length < fuel) :
    (∃ rounds buf' cwd, getcwd fs fuel d buf size = .returned rounds buf' cwd ∧ cstring buf' = shown ns) ↔
      ClearPath fs ns d ∨ ∃ ms, namesFound fs ns.length d = some ms ∧ (shown ns).length = PATH_MAX - 1 ∧
        shown ns <+: shown ms := by
  rw [getcwd_spec h fuel hf, ← namesFound_real h]
  cases hms : namesFound fs ns.length d with
  | none => simp
  | some ms =>
    obtain ⟨-, hlen, hvalid⟩ := namesFound_leads h hms
    have h0 : 0 ∉ (shown ms).take (PATH_MAX - 1) := fun hm => shown_noNul hvalid (List.mem_of_mem_take hm)
    have htext : cstring (strncpy buf ((shown ms).take (PATH_MAX - 1)) size) = shown ns ↔
        ms = ns ∨ (shown ns).length = PATH_MAX - 1 ∧ shown ns <+: shown ms :=
      (cstring_strncpy_iff h0 hsize).trans (shown_cut hvalid h.valid hlen hmax)
    constructor
    · rintro ⟨rounds, buf', cwd, hr, hbuf⟩
      cases hr
      rcases htext.1 hbuf with rfl | hcut
      · exact .inl rfl
      · exact .inr ⟨ms, rfl, hcut⟩
    · rintro (he | ⟨ms', he, hcut⟩)
      · cases he
        exact ⟨_, _, _, rfl, htext.2 (.inl rfl)⟩
      · cases he
        exact ⟨_, _, _, rfl, htext.2 (.inr hcut)⟩

/-- a link to the root comes first -/
theorem getcwd_iff_sub : ∃ rounds buf' cwd,
    getcwd (linkTree (some top)) 2 sub [] 8 = .returned rounds buf' cwd ∧ cstring buf' = shown [nameD] :=
  (getcwd_iff (linkTree (some top)) (linkTree_path _) [] (by decide) (by decide) (by decide)).2
    (.inl (ClearPath.root.entry (n := nameD) rfl (by decide) (by
      intro m hm _ _
      obtain rfl : m = nameX := by simpa [linkTree, nameX, nameD] using hm
      exact ⟨top, by decide, by decide⟩)))

/-- a link to nowhere comes first, and the program ends; a link to the directory does, and gives its name -/
theorem getcwd_links : getcwd (linkTree none) 2 sub [] 8 = .exited ∧
    ∃ buf' cwd, getcwd (linkTree (some sub)) 2 sub [] 8 = .returned 1 buf' cwd ∧ cstring buf' = [47, 120] ∧
      shown [nameD] = [47, 100] := by
  constructor
  · have hnames : namesFound (linkTree none) 1 sub = none := by decide
    rw [getcwd_spec (linkTree_path none) 2 (by decide), List.length_singleton, hnames]
  · have hnames : namesFound (linkTree (some sub)) 1 sub = some [nameX] := by decide
    rw [getcwd_spec (linkTree_path (some sub)) 2 (by decide), List.length_singleton, hnames]
    exact ⟨_, _, rfl, by decide, rfl⟩

/-! ## The working directory -/

theorem namesFound_isSome (h : fs.RealPath ns d)
    (hstat : ∀ pre p, fs.RealPath pre p → pre <+: ns → pre ≠ ns → ∀ m ∈ fs.readdir p, (fs.resolve p m).isSome) :
    ∃ ms, namesFound fs ns.length d = some ms := by
  induction h with
  | root => exact ⟨[], rfl⟩
  | @entry ns d c n h hn hc ih =>
    obtain ⟨m, ⟨h1, h2, hends⟩, hfind, hnames⟩ := namesFound_entry h.isDir hn hc ns.length
    obtain ⟨ms, hms⟩ := ih fun pre p hp hpre hne => by
      refine hstat pre p hp (hpre.trans (List.prefix_append _ _)) fun he => ?_
      have := hpre.length_le
      rw [he, List.length_append, List.length_singleton] at this
      omega
    have hmem := List.mem_of_find?_eq_some hfind
    have hsome := hstat ns d h (List.prefix_append _ _) (by simp) m hmem
    obtain ⟨x, hx⟩ := Option.isSome_iff_exists.1
      ((((fs.mem_readdir h.isDir).1 hmem).resolve_left h1).resolve_left h2)
    have hv := fs.name_valid hx
    rw [resolve_name hv.ne_nil hv.noSlash hv.fits] at hsome
    have hst : fs.step d m ≠ none := Option.isSome_iff_ne_none.1 hsome
    refine ⟨ms ++ [m], ?_⟩
    rw [List.length_append, List.length_singleton, hnames, if_neg hst, hms]
    rfl

/-- the path with these names goes into `path` and into `buf` -/
def Fits (ms : List Name) (size : ℕ) : Prop := (shown ms).length < PATH_MAX ∧ (shown ms).length < size

/-- the path does not fit, but what is left of it in `path` and in `buf` leads to `d` as well -/
def LeadsCut (fs : Fs) (ms : List Name) (buf : List Byte) (size : ℕ) (d : Id) : Prop :=
  ¬ Fits ms size ∧ fs.resolve fs.root ((shown ms).take (PATH_MAX - 1)) = some d ∧
    fs.resolve fs.root (cstring (strncpy buf ((shown ms).take (PATH_MAX - 1)) size)) = some d

/-- `getcwd` goes up once for each directory above `d`, returns a path to `d` and goes back to it -/
def Restores (fs : Fs) (depth : ℕ) (d : Id) (buf : List Byte) (size : ℕ) : Prop :=
  ∃ buf', (∀ fuel, depth < fuel → getcwd fs fuel d buf size = .returned depth buf' d) ∧
    fs.resolve fs.root (cstring buf') = some d

theorem resolve_shown (hvalid : ∀ m ∈ ms, ValidName m) (hlead : ms.foldlM fs.step fs.root = some d)
    (hmax : (shown ms).length < PATH_MAX) :
    fs.resolve fs.root (shown ms) = if fs.links fs.root ms ≤ MAXSYMLINKS then some d else none := by
  have hfollow := foldlM_follow hlead (Nat.zero_le MAXSYMLINKS)
  rw [Nat.zero_add] at hfollow
  unfold shown at hmax ⊢
  by_cases hnil : ms = []
  · subst hnil
    cases hlead
    rw [if_pos rfl, resolve_root]
    rfl
  · rw [if_neg hnil] at hmax ⊢
    rw [resolve_pathOf hvalid hnil hmax, hfollow]
    split_ifs <;> rfl

/-- a path that does not fit is not that of the root -/
theorem ne_root_of_not_fits (h : fs.RealPath ns d) (hms : namesFound fs ns.length d = some ms) {size : ℕ}
    (hsize : (shown ns).length < size) (hfits : ¬ Fits ms size) : d ≠ fs.root := by
  rintro rfl
  obtain rfl := h.unique .root
  cases hms
  exact hfits ⟨by decide, hsize⟩

theorem chdir_eq_iff (hd : fs.isDir d = true) (hne : d ≠ fs.root) (path : List Byte) :
    fs.chdir fs.root path = d ↔ fs.resolve fs.root path = some d := by
  unfold chdir
  constructor
  · intro h
    split at h
    · rename_i e he
      split_ifs at h
      · rw [he, h]
      · exact absurd h.symm hne
    · exact absurd h.symm hne
  · intro h
    rw [h]
    exact if_pos hd

theorem restores_iff (h : fs.RealPath ns d) (hms : namesFound fs ns.length d = some ms) (buf : List Byte) {size : ℕ}
    (hsize : (shown ns).length < size) : Restores fs ns.length d buf size ↔
      Fits ms size ∧ fs.links fs.root ms ≤ MAXSYMLINKS ∨ LeadsCut fs ms buf size d := by
  obtain ⟨hlead, -, hvalid⟩ := namesFound_leads h hms
  have hreturns : Restores fs ns.length d buf size ↔
      fs.chdir fs.root ((shown ms).take (PATH_MAX - 1)) = d ∧
        fs.resolve fs.root (cstring (strncpy buf ((shown ms).take (PATH_MAX - 1)) size)) = some d := by
    constructor
    · rintro ⟨buf', hbuf, htext⟩
      have hret := hbuf (ns.length + 1) (Nat.lt_succ_self _)
      rw [getcwd_spec h _ (Nat.lt_succ_self _), hms] at hret
      obtain ⟨-, rfl, hcwd⟩ := Result.returned.inj hret
      exact ⟨hcwd, htext⟩
    · rintro ⟨hcwd, htext⟩
      refine ⟨_, fun fuel hf => ?_, htext⟩
      rw [getcwd_spec h fuel hf, hms]
      simp only [hcwd]
  rw [hreturns]
  by_cases hfits : Fits ms size
  · have hcut : (shown ms).take (PATH_MAX - 1) = shown ms := List.take_of_length_le (Nat.le_sub_one_of_lt hfits.1)
    have hno : ¬ LeadsCut fs ms buf size d := fun hl => hl.1 hfits
    rw [hcut, cstring_strncpy (shown_noNul hvalid) hfits.2, or_iff_left hno, and_iff_right hfits, chdir,
      resolve_shown hvalid hlead hfits.1]
    by_cases hlinks : fs.links fs.root ms ≤ MAXSYMLINKS
    · simp [hlinks, h.isDir]
    · simp [hlinks]
  · rw [chdir_eq_iff h.isDir (ne_root_of_not_fits h hms hsize hfits), LeadsCut, and_iff_right hfits,
      or_iff_right fun hl => hfits hl.1]

/-- **The working directory.** For every tree and every directory, if all entries of the directories above it can be
looked at with `stat`, for every order of the entries: the loop is left after as many rounds as the directory has
directories above it, what is returned leads to the directory, and the directory is the working directory again, exactly
when the path with the names found fits and goes over at most `MAXSYMLINKS` links. The exception is a path that does not
fit, and leads to the directory also when it is cut off. -/
theorem getcwd_restores_iff (fs : Fs) {ns : List Name} {d : Id} (h : fs.RealPath ns d)
    (hstat : ∀ pre p, fs.RealPath pre p → pre <+: ns → pre ≠ ns → ∀ m ∈ fs.readdir p, (fs.resolve p m).isSome)
    (buf : List Byte) {size : ℕ} (hsize : (shown ns).length < size) :
    Restores fs ns.length d buf size ↔
      ∃ ms, namesFound fs ns.length d = some ms ∧
        (Fits ms size ∧ fs.links fs.root ms ≤ MAXSYMLINKS ∨ LeadsCut fs ms buf size d) := by
  obtain ⟨ms, hms⟩ := namesFound_isSome h hstat
  rw [restores_iff h hms buf hsize, hms]
  simp

/-- the path is the name of a link to the directory -/
theorem getcwd_restores_sub : Restores (linkTree (some sub)) 1 sub [] 8 := by
  refine (getcwd_restores_iff (linkTree (some sub)) (linkTree_path _) (fun pre p hp hpre hne m hm => ?_) []
    (by decide)).2 ⟨[nameX], by decide, .inl ⟨⟨by decide, by decide⟩, by decide⟩⟩
  obtain rfl : pre = [] := by
    rcases pre with _ | ⟨a, pre⟩
    · rfl
    · obtain ⟨rfl, hrest⟩ := List.cons_prefix_cons.1 hpre
      rw [List.prefix_nil.1 hrest] at hne
      exact absurd rfl hne
  obtain rfl := hp.det .root
  obtain rfl | rfl | rfl | rfl : m = nameX ∨ m = nameD ∨ m = dot ∨ m = dotdot := by simpa [linkTree] using hm
  all_goals
    rw [resolve_name (by decide) (by decide) (by decide)]
    decide

/-! ## Many links -/

def level (i : ℕ) : Id := ⟨0, i⟩

/-- `k` directories, each the entry `d` of the one before it, and before each entry a link `x` to the directory -/
def tower (k : ℕ) : Fs where
  root := level 0
  isDir i := i.dev = 0 ∧ i.ino ≤ k
  parent i := if i.dev = 0 then level (i.ino - 1) else level 0
  lookup i n :=
    if i.dev = 0 ∧ i.ino < k ∧ n = nameD then some (.inode (level (i.ino + 1)))
    else if i.dev = 0 ∧ i.ino < k ∧ n = nameX then some (.link (some (level (i.ino + 1))) 0) else none
  readdir i := if i.dev = 0 ∧ i.ino < k then [nameX, nameD, dot, dotdot] else [dot, dotdot]
  root_isDir := by simp [level]
  parent_root := rfl
  parent_isDir {d} h := by
    have hd := of_decide_eq_true h
    have hle := hd.2
    simp only [hd.1, if_true, level]
    exact decide_eq_true ⟨trivial, by omega⟩
  name_valid {d n x} h := by
    split_ifs at h with h1 h2
    · rw [h1.2.2]
      constructor <;> decide
    · rw [h2.2.2]
      constructor <;> decide
  parent_eq {d n c} h _ := by
    split_ifs at h with h1
    · cases h
      obtain ⟨dev, ino⟩ := d
      obtain rfl : dev = 0 := h1.1
      simp [level]
    · cases h
  ne_root {d n c} h _ := by
    split_ifs at h with h1
    · cases h
      simp [level]
    · cases h
  name_unique {d n m c} hn hm _ := by
    split_ifs at hn with h1
    · split_ifs at hm with h2
      · rw [h1.2.2, h2.2.2]
      · cases hm
    · cases hn
  mem_readdir {d n} _ := by
    have hne : nameX ≠ nameD := by decide
    by_cases hd : d.dev = 0 ∧ d.ino < k
    · by_cases h1 : n = nameD <;> by_cases h2 : n = nameX <;> simp [hd, h1, h2, hne]
    · have hno : ∀ n' : Name, ¬ (d.dev = 0 ∧ d.ino < k ∧ n = n') := fun _ h => hd ⟨h.1, h.2.1⟩
      simp [hd, hno]

theorem tower_path {k i : ℕ} (hi : i ≤ k) : (tower k).RealPath (List.replicate i nameD) (level i) := by
  induction i with
  | zero => exact .root
  | succ i ih =>
    rw [List.replicate_succ']
    refine (ih (Nat.le_of_succ_le hi)).entry ?_ (decide_eq_true ⟨rfl, hi⟩)
    exact if_pos ⟨rfl, hi, rfl⟩

theorem tower_stat {k i : ℕ} (hi : i < k) :
    ∀ m ∈ (tower k).readdir (level i), ((tower k).resolve (level i) m).isSome := by
  have hd : (tower k).isDir (level i) = true := decide_eq_true ⟨rfl, hi.le⟩
  have hreaddir : (tower k).readdir (level i) = [nameX, nameD, dot, dotdot] := if_pos ⟨rfl, hi⟩
  have hentry : (tower k).lookup (level i) nameD = some (.inode (level (i + 1))) := if_pos ⟨rfl, hi, rfl⟩
  have hlink : (tower k).lookup (level i) nameX = some (.link (some (level (i + 1))) 0) :=
    (if_neg fun h => absurd h.2.2 (by decide)).trans (if_pos ⟨rfl, hi, rfl⟩)
  have hstep : (tower k).step (level i) nameX = some (level (i + 1)) := by
    have h1 : nameX ≠ dot := by decide
    have h2 : nameX ≠ dotdot := by decide
    simp [step, follow, hd, hlink, h1, h2, MAXSYMLINKS]
  intro m hm
  rw [hreaddir] at hm
  obtain rfl | rfl | rfl | rfl : m = nameX ∨ m = nameD ∨ m = dot ∨ m = dotdot := by simpa using hm
  all_goals rw [resolve_name (by decide) (by decide) (by decide)]
  · rw [hstep]
    rfl
  · rw [step_inode hd hentry]
    rfl
  · rw [step_dot hd]
    rfl
  · rw [step_dotdot hd]
    rfl

/-- 41 levels: the path over the links is not resolved, and the program is left in the root -/
theorem not_getcwd_restores :
    (tower 41).RealPath (List.replicate 41 nameD) (level 41) ∧
      (∀ pre p, (tower 41).RealPath pre p → pre <+: List.replicate 41 nameD → pre ≠ List.replicate 41 nameD →
        ∀ m ∈ (tower 41).readdir p, ((tower 41).resolve p m).isSome) ∧
      (shown (List.replicate 41 nameD)).length < PATH_MAX ∧
      (∃ buf', getcwd (tower 41) 42 (level 41) [] PATH_MAX = .returned 41 buf' (level 0)) ∧
      ¬ Restores (tower 41) 41 (level 41) [] PATH_MAX := by
  have hpath := tower_path (le_refl 41)
  have hnames : namesFound (tower 41) 41 (level 41) = some (List.replicate 41 nameX) := by decide +kernel
  have hcwd : (tower 41).chdir (tower 41).root ((shown (List.replicate 41 nameX)).take (PATH_MAX - 1)) = level 0 := by
    decide +kernel
  have hret := getcwd_spec hpath 42 (by decide) [] PATH_MAX
  rw [List.length_replicate, hnames] at hret
  simp only [hcwd] at hret
  refine ⟨hpath, ?_, by decide, ⟨_, hret⟩, ?_⟩
  · intro pre p hp hpre hne
    obtain ⟨i, hi, rfl⟩ : ∃ i, i ≤ 41 ∧ pre = List.replicate i nameD :=
      ⟨pre.length, by simpa using hpre.length_le,
        List.eq_replicate_length.2 fun b hb => List.eq_of_mem_replicate (hpre.subset hb)⟩
    obtain rfl := hp.det (tower_path hi)
    refine tower_stat (lt_of_le_of_ne hi fun he => hne ?_)
    rw [he]
  · rintro ⟨buf', hbuf, -⟩
    have hroot := (hbuf 42 (by decide)).symm.trans hret
    exact absurd (Result.returned.inj hroot).2.2 (by decide)

end OsPractice.Getcwd
