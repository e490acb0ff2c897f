/-
A tree of directories with links, as the system calls show it. Library: nothing here names a program.

A directory or another file has an identity, the device and the inode number that `stat` returns; a mount point is a
directory whose device is not that of its parent. Every directory but the root has one entry, and `..` is the directory
that the entry is in. A symbolic link stands for the file that its target leads to, if it leads to one, over a number of
further links: as nothing in the tree changes, that depends on the link only. A path is resolved if it is short enough
and goes over at most `MAXSYMLINKS` links in all. Every directory can be read and searched.

Results:
- `RealPath.unique`: there is one path to a directory without links;
- `components_pathOf`, `pathOf_injective`: paths and the names that they consist of;
- `resolve_pathOf`: a path from the root is resolved name by name;
- `foldlM_follow`: names that lead somewhere one by one lead there as a path unless that has too many links.
-/
import OsPractice.Core.Bytes

namespace OsPractice.DirTree

open Bytes

abbrev Name := List Byte

/-- `'/'` -/
def slash : Byte := 47

/-- `"."` -/
def dot : Name := [46]

/-- `".."` -/
def dotdot : Name := [46, 46]

/-- the bytes of a path and its NUL -/
def PATH_MAX : ℕ := 4096

/-- the bytes of a name -/
def NAME_MAX : ℕ := 255

/-- the links that a path may go over -/
def MAXSYMLINKS : ℕ := 40

/-- what tells files apart: `st_dev` and `st_ino` -/
structure Id where
  dev : ℕ
  ino : ℕ
  deriving DecidableEq, Repr

inductive Node where
  | inode (i : Id)
  /-- a symbolic link, what its target leads to, and over how many links -/
  | link (target : Option Id) (more : ℕ)
  deriving DecidableEq, Repr

/-- a name that an entry other than `.` and `..` can have -/
structure ValidName (n : Name) : Prop where
  ne_nil : n ≠ []
  noSlash : slash ∉ n
  noNul : 0 ∉ n
  ne_dot : n ≠ dot
  ne_dotdot : n ≠ dotdot
  short : n.length ≤ NAME_MAX

theorem ValidName.fits {n : Name} (h : ValidName n) : n.length < PATH_MAX := h.short.trans_lt (by decide)

structure Fs where
  root : Id
  isDir : Id → Bool
  parent : Id → Id
  lookup : Id → Name → Option Node
  /-- the names in a directory, in the order of `readdir` -/
  readdir : Id → List Name
  root_isDir : isDir root = true
  parent_root : parent root = root
  parent_isDir : ∀ {d}, isDir d = true → isDir (parent d) = true
  name_valid : ∀ {d n x}, lookup d n = some x → ValidName n
  /-- the entry of a directory -/
  parent_eq : ∀ {d n c}, lookup d n = some (.inode c) → isDir c = true → parent c = d
  ne_root : ∀ {d n c}, lookup d n = some (.inode c) → isDir c = true → c ≠ root
  name_unique : ∀ {d n m c}, lookup d n = some (.inode c) → lookup d m = some (.inode c) → isDir c = true → n = m
  mem_readdir : ∀ {d n}, isDir d = true → (n ∈ readdir d ↔ n = dot ∨ n = dotdot ∨ (lookup d n).isSome)

/-! ## Paths -/

/-- the names in a path -/
def components (path : List Byte) : List Name := (path.splitOn slash).filter (· ≠ [])

/-- the absolute path of these names -/
def pathOf (ns : List Name) : List Byte := ns.flatMap fun n => slash :: n

theorem components_slash (s t : List Byte) : components (s ++ slash :: t) = components s ++ components t := by
  rw [components, List.splitOn_append_cons_self, List.filter_append, components, components]

theorem components_nil : components [] = [] := by
  rw [components, List.splitOn_eq_singleton (by simp)]
  simp

theorem components_cons (t : List Byte) : components (slash :: t) = components t := by
  have h := components_slash [] t
  rwa [List.nil_append, components_nil, List.nil_append] at h

theorem components_name {n : Name} (h : n ≠ []) (hs : slash ∉ n) : components n = [n] := by
  rw [components, List.splitOn_eq_singleton hs]
  simp [h]

@[simp] theorem pathOf_cons (n : Name) (ns : List Name) : pathOf (n :: ns) = slash :: (n ++ pathOf ns) := by
  simp [pathOf]

theorem components_pathOf {ns : List Name} (h : ∀ n ∈ ns, ValidName n) : components (pathOf ns) = ns := by
  induction ns with
  | nil => exact components_nil
  | cons n ns ih =>
    have hn := h n List.mem_cons_self
    have hcomp := components_name hn.ne_nil hn.noSlash
    have hns := ih fun m hm => h m (List.mem_cons_of_mem _ hm)
    have hrest : components (n ++ pathOf ns) = n :: ns := by
      cases ns with
      | nil => simpa [pathOf] using hcomp
      | cons m ms =>
        calc components (n ++ pathOf (m :: ms))
            = components n ++ components (m ++ pathOf ms) := by rw [pathOf_cons, components_slash]
          _ = [n] ++ components (pathOf (m :: ms)) := by rw [hcomp, pathOf_cons, components_cons]
          _ = n :: m :: ms := by rw [hns, List.singleton_append]
    rw [pathOf_cons, components_cons, hrest]

theorem pathOf_injective {ms ns : List Name} (hm : ∀ n ∈ ms, ValidName n) (hn : ∀ n ∈ ns, ValidName n)
    (h : pathOf ms = pathOf ns) : ms = ns := by
  rw [← components_pathOf hm, h, components_pathOf hn]

theorem pathOf_noNul {ns : List Name} (h : ∀ n ∈ ns, ValidName n) : 0 ∉ pathOf ns := by
  intro h0
  obtain ⟨n, hn, hmem⟩ := List.mem_flatMap.1 h0
  exact List.not_mem_cons_of_ne_of_not_mem (by decide) (h n hn).noNul hmem

namespace Fs

variable {fs : Fs} {d c i : Id} {n m : Name} {ns ms : List Name}

/-- from a directory that has been reached over `k` links to what a name leads to -/
def follow (fs : Fs) : Id × ℕ → Name → Option (Id × ℕ)
  | (d, k), n =>
    if fs.isDir d = false then none
    else if n = dot then some (d, k)
    else if n = dotdot then some (fs.parent d, k)
    else
      match fs.lookup d n with
      | none => none
      | some (.inode i) => some (i, k)
      | some (.link target more) =>
        -- `ELOOP`
        if MAXSYMLINKS < k + (more + 1) then none else target.map fun i => (i, k + (more + 1))

/-- what a path leads to, seen from the directory `cwd` -/
def resolve (fs : Fs) (cwd : Id) (path : List Byte) : Option Id :=
  if path = [] ∨ PATH_MAX ≤ path.length then none
  else
    let start := if path.head? = some slash then fs.root else cwd
    ((components path).foldlM fs.follow (start, 0)).map Prod.fst

/-- what a name in a directory leads to -/
def step (fs : Fs) (d : Id) (n : Name) : Option Id := (fs.follow (d, 0) n).map Prod.fst

/-- the links that a name goes over -/
def linksAt (fs : Fs) (d : Id) (n : Name) : ℕ :=
  match fs.lookup d n with
  | some (.link _ more) => more + 1
  | _ => 0

/-- the links that a path from `d` goes over -/
def links (fs : Fs) : Id → List Name → ℕ
  | _, [] => 0
  | d, n :: ns => fs.linksAt d n + (fs.step d n).elim 0 fun i => fs.links i ns

/-- the working directory after `chdir`, which changes nothing where it fails -/
def chdir (fs : Fs) (cwd : Id) (path : List Byte) : Id :=
  match fs.resolve cwd path with
  | some d => if fs.isDir d then d else cwd
  | none => cwd

/-- `ns` are the names of the directories from the root to `d` -/
inductive RealPath (fs : Fs) : List Name → Id → Prop where
  | root : RealPath fs [] fs.root
  | entry {ns : List Name} {d c : Id} {n : Name} (h : RealPath fs ns d) (hn : fs.lookup d n = some (.inode c))
      (hc : fs.isDir c = true) : RealPath fs (ns ++ [n]) c

theorem RealPath.isDir (h : RealPath fs ns d) : fs.isDir d = true := by
  cases h with
  | root => exact fs.root_isDir
  | entry _ _ hc => exact hc

theorem RealPath.valid (h : RealPath fs ns d) : ∀ n ∈ ns, ValidName n := by
  induction h with
  | root => simp
  | entry _ hn _ ih =>
    intro m hm
    rcases List.mem_append.1 hm with hm | hm
    · exact ih m hm
    · rw [List.mem_singleton.1 hm]
      exact fs.name_valid hn

/-- there is one path without links to a directory -/
theorem RealPath.unique (h : RealPath fs ns d) (h' : RealPath fs ms d) : ms = ns := by
  induction h generalizing ms with
  | root =>
    cases h' with
    | root => rfl
    | entry _ hn hc => exact absurd rfl (fs.ne_root hn hc)
  | entry h hn hc ih =>
    cases h' with
    | root => exact absurd rfl (fs.ne_root hn hc)
    | entry h' hn' _ =>
      obtain rfl := (fs.parent_eq hn hc).symm.trans (fs.parent_eq hn' hc)
      rw [ih h', fs.name_unique hn' hn hc]

/-- a path without links leads to one directory -/
theorem RealPath.det {d' : Id} (h : fs.RealPath ns d) (h' : fs.RealPath ns d') : d = d' := by
  induction h generalizing d' with
  | root =>
    generalize hns : ([] : List Name) = ns' at h'
    cases h' with
    | root => rfl
    | entry => simp at hns
  | @entry ns d c n h hn hc ih =>
    generalize hns : ns ++ [n] = ns' at h'
    cases h' with
    | root => simp at hns
    | entry h' hn' _ =>
      obtain ⟨rfl, hm⟩ := List.append_inj' hns rfl
      obtain ⟨rfl, -⟩ := List.cons_eq_cons.1 hm
      obtain rfl := ih h'
      simpa [hn] using hn'

theorem step_dot (hd : fs.isDir d = true) : fs.step d dot = some d := by
  simp [step, follow, hd]

theorem step_dotdot (hd : fs.isDir d = true) : fs.step d dotdot = some (fs.parent d) := by
  simp [step, follow, hd, dot, dotdot]

theorem step_inode (hd : fs.isDir d = true) (h : fs.lookup d n = some (.inode i)) : fs.step d n = some i := by
  have hv := fs.name_valid h
  simp [step, follow, hd, h, hv.ne_dot, hv.ne_dotdot]

/-- a name other than `.` and `..` that leads somewhere is that of an entry -/
theorem step_valid (h : fs.step d n = some i) (h1 : n ≠ dot) (h2 : n ≠ dotdot) : ValidName n := by
  obtain ⟨p, hp, -⟩ := Option.map_eq_some_iff.1 h
  simp only [follow] at hp
  split_ifs at hp
  split at hp
  · cases hp
  · rename_i hl
    exact fs.name_valid hl
  · rename_i hl
    exact fs.name_valid hl

theorem resolve_name (hn : n ≠ []) (hs : slash ∉ n) (hlen : n.length < PATH_MAX) (d : Id) :
    fs.resolve d n = fs.step d n := by
  have hhead : ¬ n.head? = some slash := fun h => hs (List.mem_of_head? h)
  rw [resolve, if_neg (not_or.2 ⟨hn, not_le.2 hlen⟩), step, if_neg hhead, components_name hn hs]
  simp

theorem resolve_root (fs : Fs) (d : Id) : fs.resolve d [slash] = some fs.root := by
  rw [resolve, if_neg (by decide), components_cons, components_nil]
  simp

/-- a path from the root -/
theorem resolve_pathOf (hv : ∀ n ∈ ns, ValidName n) (hne : ns ≠ []) (hlen : (pathOf ns).length < PATH_MAX) (d : Id) :
    fs.resolve d (pathOf ns) = (ns.foldlM fs.follow (fs.root, 0)).map Prod.fst := by
  obtain ⟨n, ns, rfl⟩ := List.exists_cons_of_ne_nil hne
  rw [resolve, if_neg (not_or.2 ⟨by simp, not_le.2 hlen⟩), components_pathOf hv, pathOf_cons]
  simp

theorem linksAt_dots (h : n = dot ∨ n = dotdot) : fs.linksAt d n = 0 := by
  have hnone : fs.lookup d n = none := by
    by_contra hsome
    obtain ⟨x, hx⟩ := Option.ne_none_iff_exists'.1 hsome
    exact h.elim (fs.name_valid hx).ne_dot (fs.name_valid hx).ne_dotdot
  rw [linksAt, hnone]

/-- a name that leads somewhere, behind a path with `k` links -/
theorem follow_of_step (h : fs.step d n = some i) {k : ℕ} (hk : k ≤ MAXSYMLINKS) :
    fs.follow (d, k) n =
      if k + fs.linksAt d n ≤ MAXSYMLINKS then some (i, k + fs.linksAt d n) else none := by
  obtain ⟨⟨i, j⟩, hp, rfl⟩ := Option.map_eq_some_iff.1 h
  have hd : ¬ fs.isDir d = false := fun hd => by simp [follow, hd] at hp
  by_cases h1 : n = dot
  · rw [follow, if_neg hd, if_pos h1] at hp ⊢
    cases hp
    rw [linksAt_dots (.inl h1), Nat.add_zero, if_pos hk]
  by_cases h2 : n = dotdot
  · rw [follow, if_neg hd, if_neg h1, if_pos h2] at hp ⊢
    cases hp
    rw [linksAt_dots (.inr h2), Nat.add_zero, if_pos hk]
  rw [follow, if_neg hd, if_neg h1, if_neg h2] at hp ⊢
  cases hl : fs.lookup d n with
  | none =>
    rw [hl] at hp
    cases hp
  | some x =>
    rw [hl] at hp
    cases x with
    | inode c =>
      cases hp
      have hzero : fs.linksAt d n = 0 := by rw [linksAt, hl]
      rw [hzero, Nat.add_zero, if_pos hk]
    | link target more =>
      have hmore : fs.linksAt d n = more + 1 := by rw [linksAt, hl]
      simp only at hp ⊢
      split_ifs at hp
      obtain ⟨c, rfl, he⟩ := Option.map_eq_some_iff.1 hp
      cases he
      rw [hmore]
      by_cases hfew : k + (more + 1) ≤ MAXSYMLINKS
      · rw [if_pos hfew, if_neg (not_lt.2 hfew)]
        rfl
      · rw [if_neg hfew, if_pos (not_le.1 hfew)]

/-- names that lead somewhere one by one, as a path -/
theorem foldlM_follow (h : ns.foldlM fs.step d = some i) {k : ℕ} (hk : k ≤ MAXSYMLINKS) :
    ns.foldlM fs.follow (d, k) =
      if k + fs.links d ns ≤ MAXSYMLINKS then some (i, k + fs.links d ns) else none := by
  induction ns generalizing d k with
  | nil =>
    cases h
    simp [links, hk]
  | cons n ns ih =>
    obtain ⟨c, hc, hrest⟩ := Option.bind_eq_some_iff.1 ((List.foldlM_cons ..).symm.trans h)
    have hlinks : fs.links d (n :: ns) = fs.linksAt d n + fs.links c ns := by rw [links, hc, Option.elim_some]
    rw [List.foldlM_cons, follow_of_step hc hk, hlinks]
    by_cases hfirst : k + fs.linksAt d n ≤ MAXSYMLINKS
    · rw [if_pos hfirst, Option.bind_eq_bind, Option.bind_some, ih hrest hfirst, Nat.add_assoc]
    · rw [if_neg hfirst, if_neg (by omega)]
      rfl

end Fs

end OsPractice.DirTree
