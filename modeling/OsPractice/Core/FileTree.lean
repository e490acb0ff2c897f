/-
A file system as a tree of directories. Library: nothing here names a program.

A node (a file or a directory) has a number, which is never used again. An entry gives a node a name in a directory;
every node but the root has one entry. Entries are created, deleted and renamed. Hard links, symbolic links and
permissions are not modelled. A rename of an entry to itself does nothing and is no operation here.

Results:
- `apply_dirs`: an operation is made in directories that exist;
- `apply_ino`, `Exists.apply`: after an operation there are the nodes from before, without the one that has been
  removed, and perhaps the new node;
- `Wf.apply`: what holds of the numbers and names of every file system.
-/
import Mathlib.Tactic

namespace OsPractice.FileTree

def NAME_MAX : ℕ := 255

def ValidName (name : String) : Prop := 0 < name.utf8ByteSize ∧ name.utf8ByteSize ≤ NAME_MAX

instance (name : String) : Decidable (ValidName name) := inferInstanceAs (Decidable (_ ∧ _))

structure Entry where
  dir : ℕ
  name : String
  ino : ℕ
  isDir : Bool
  deriving DecidableEq, Repr

structure Fs where
  root : ℕ
  entries : List Entry
  /-- the number of the next node -/
  next : ℕ
  deriving DecidableEq, Repr

inductive Op where
  | create (dir : ℕ) (name : String) (isDir : Bool)
  | delete (dir : ℕ) (name : String)
  | rename (dir : ℕ) (name : String) (dir' : ℕ) (name' : String)
  deriving DecidableEq, Repr

namespace Fs

def find (fs : Fs) (dir : ℕ) (name : String) : Option Entry :=
  fs.entries.find? fun e => e.dir = dir ∧ e.name = name

/-- there is a directory with this number -/
def HasDir (fs : Fs) (i : ℕ) : Prop := i = fs.root ∨ ∃ e ∈ fs.entries, e.ino = i ∧ e.isDir = true

instance (fs : Fs) (i : ℕ) : Decidable (fs.HasDir i) := inferInstanceAs (Decidable (_ ∨ _))

def IsEmpty (fs : Fs) (i : ℕ) : Prop := ∀ e ∈ fs.entries, e.dir ≠ i

instance (fs : Fs) (i : ℕ) : Decidable (fs.IsEmpty i) := inferInstanceAs (Decidable (∀ e ∈ fs.entries, e.dir ≠ i))

/-- node `i` and the directories above it, at most `n` of them -/
def above (fs : Fs) : ℕ → ℕ → List ℕ
  | 0, i => [i]
  | n + 1, i =>
    match fs.entries.find? fun e => e.ino = i with
    | none => [i]
    | some e => i :: fs.above n e.dir

/-- entry `e` may take the place of what has its new name -/
def MayReplace (fs : Fs) (e : Entry) : Option Entry → Prop
  | none => True
  | some t => t.isDir = e.isDir ∧ (t.isDir = true → fs.IsEmpty t.ino)

instance (fs : Fs) (e : Entry) (t : Option Entry) : Decidable (fs.MayReplace e t) :=
  match t with
  | none => inferInstanceAs (Decidable True)
  | some t => inferInstanceAs (Decidable (t.isDir = e.isDir ∧ (t.isDir = true → fs.IsEmpty t.ino)))

/-- without the entry `t` -/
def remove (fs : Fs) : Option Entry → Fs
  | none => fs
  | some t => { fs with entries := fs.entries.filter fun e => e.ino ≠ t.ino }

/-- node `i` gets another name -/
def relink (fs : Fs) (i dir : ℕ) (name : String) : Fs :=
  { fs with entries := fs.entries.map fun e => if e.ino = i then { e with dir := dir, name := name } else e }

/-- the entry whose node is gone after an operation -/
def removed (fs : Fs) : Op → Option Entry
  | .create _ _ _ => none
  | .delete dir name => fs.find dir name
  | .rename _ _ dir' name' => fs.find dir' name'

/-- the file system after an operation; `none` if the operation fails -/
def apply (fs : Fs) (op : Op) : Option Fs :=
  match op with
  | .create dir name isDir =>
    if fs.HasDir dir ∧ fs.find dir name = none ∧ ValidName name then
      some { fs with entries := fs.entries ++ [⟨dir, name, fs.next, isDir⟩], next := fs.next + 1 }
    else none
  | .delete dir name =>
    match fs.find dir name with
    | none => none
    | some e =>
      if fs.HasDir dir ∧ (e.isDir = true → fs.IsEmpty e.ino) then some (fs.remove (fs.removed op)) else none
  | .rename dir name dir' name' =>
    match fs.find dir name with
    | none => none
    | some e =>
      -- a directory does not become its own descendant
      if fs.HasDir dir ∧ fs.HasDir dir' ∧ ValidName name' ∧ (dir, name) ≠ (dir', name') ∧
          e.ino ∉ fs.above fs.entries.length dir' ∧ fs.MayReplace e (fs.find dir' name') then
        some ((fs.remove (fs.removed op)).relink e.ino dir' name')
      else none

/-- there is a node with this number -/
def Exists (fs : Fs) (i : ℕ) : Prop := i = fs.root ∨ ∃ e ∈ fs.entries, e.ino = i

theorem HasDir.exists {fs : Fs} {i : ℕ} (h : fs.HasDir i) : fs.Exists i :=
  h.imp_right fun ⟨e, he, hi, _⟩ => ⟨e, he, hi⟩

theorem find_exists {fs : Fs} {dir : ℕ} {name : String} {e : Entry} (h : fs.find dir name = some e) :
    fs.Exists e.ino := .inr ⟨e, List.mem_of_find?_eq_some h, rfl⟩

theorem removed_exists {fs : Fs} {op : Op} {t : Entry} (h : fs.removed op = some t) : fs.Exists t.ino := by
  cases op with
  | create => cases h
  | delete dir name => exact find_exists h
  | rename dir name dir' name' => exact find_exists h

end Fs

/-- the directories that an operation is made in -/
def Op.dirs : Op → List ℕ
  | .create dir _ _ => [dir]
  | .delete dir _ => [dir]
  | .rename dir _ dir' _ => [dir, dir']

namespace Fs

variable {fs fs' : Fs} {op : Op}

theorem mem_remove {t : Option Entry} {e : Entry} (h : e ∈ (fs.remove t).entries) :
    e ∈ fs.entries ∧ ∀ t', t = some t' → e.ino ≠ t'.ino := by
  cases t with
  | none => exact ⟨h, fun t' ht => by cases ht⟩
  | some t =>
    obtain ⟨he, hne⟩ := List.mem_filter.1 h
    refine ⟨he, fun t' ht => ?_⟩
    cases ht
    simpa using hne

/-- an entry of `relink` was there under this or another name -/
theorem mem_relink {i dir : ℕ} {name : String} {e' : Entry} (h : e' ∈ (fs.relink i dir name).entries) :
    ∃ e ∈ fs.entries, e.ino = e'.ino ∧ (e'.name = e.name ∨ e'.name = name) := by
  obtain ⟨e, he, rfl⟩ := List.mem_map.1 h
  refine ⟨e, he, ?_⟩
  split_ifs
  · exact ⟨rfl, .inr rfl⟩
  · exact ⟨rfl, .inl rfl⟩

@[simp] theorem remove_root (fs : Fs) (t : Option Entry) : (fs.remove t).root = fs.root := by
  cases t <;> rfl

@[simp] theorem remove_next (fs : Fs) (t : Option Entry) : (fs.remove t).next = fs.next := by
  cases t <;> rfl

/-- all that an operation does -/
theorem apply_cases (h : fs.apply op = some fs') :
    (∃ dir name isDir, op = .create dir name isDir ∧ fs.HasDir dir ∧ ValidName name ∧
      fs' = { fs with entries := fs.entries ++ [⟨dir, name, fs.next, isDir⟩], next := fs.next + 1 }) ∨
    (∃ dir name e, op = .delete dir name ∧ fs.HasDir dir ∧ fs.find dir name = some e ∧
      fs' = fs.remove (fs.removed op)) ∨
    ∃ dir name dir' name' e, op = .rename dir name dir' name' ∧ fs.HasDir dir ∧ fs.HasDir dir' ∧
      fs.find dir name = some e ∧ ValidName name' ∧ fs' = (fs.remove (fs.removed op)).relink e.ino dir' name' := by
  cases op with
  | create dir name isDir =>
    simp only [apply] at h
    split_ifs at h with hc
    exact .inl ⟨dir, name, isDir, rfl, hc.1, hc.2.2, (Option.some_inj.1 h).symm⟩
  | delete dir name =>
    simp only [apply] at h
    split at h
    · cases h
    · rename_i e he
      split_ifs at h with hc
      exact .inr (.inl ⟨dir, name, e, rfl, hc.1, he, (Option.some_inj.1 h).symm⟩)
  | rename dir name dir' name' =>
    simp only [apply] at h
    split at h
    · cases h
    · rename_i e he
      split_ifs at h with hc
      exact .inr (.inr ⟨dir, name, dir', name', e, rfl, hc.1, hc.2.1, he, hc.2.2.1, (Option.some_inj.1 h).symm⟩)

/-- an operation is made in directories that exist -/
theorem apply_dirs (h : fs.apply op = some fs') {i : ℕ} (hi : i ∈ op.dirs) : fs.HasDir i := by
  rcases apply_cases h with ⟨dir, name, isDir, rfl, hd, -⟩ | ⟨dir, name, e, rfl, hd, -⟩ |
    ⟨dir, name, dir', name', e, rfl, hd, hd', -⟩
  · exact List.mem_singleton.1 hi ▸ hd
  · exact List.mem_singleton.1 hi ▸ hd
  · rcases List.mem_cons.1 hi with rfl | hi
    · exact hd
    · exact List.mem_singleton.1 hi ▸ hd'

/-- the entries after an operation -/
theorem apply_ino (h : fs.apply op = some fs') {e' : Entry} (he : e' ∈ fs'.entries) :
    (e'.ino = fs.next ∧ fs'.next = fs.next + 1) ∨
      (∃ e ∈ fs.entries, e.ino = e'.ino) ∧ ∀ t, fs.removed op = some t → e'.ino ≠ t.ino := by
  rcases apply_cases h with ⟨dir, name, isDir, rfl, -, -, rfl⟩ | ⟨dir, name, e, rfl, -, -, rfl⟩ |
    ⟨dir, name, dir', name', e, rfl, -, -, -, -, rfl⟩
  · rcases List.mem_append.1 he with he | he
    · exact .inr ⟨⟨e', he, rfl⟩, fun t ht => by cases ht⟩
    · rw [List.mem_singleton.1 he]
      exact .inl ⟨rfl, rfl⟩
  · obtain ⟨he, hne⟩ := mem_remove he
    exact .inr ⟨⟨e', he, rfl⟩, hne⟩
  · obtain ⟨e₁, he, hino, -⟩ := mem_relink he
    obtain ⟨he, hne⟩ := mem_remove he
    exact .inr ⟨⟨e₁, he, hino⟩, fun t ht => hino ▸ hne t ht⟩

theorem apply_root (h : fs.apply op = some fs') : fs'.root = fs.root := by
  rcases apply_cases h with ⟨dir, name, isDir, rfl, -, -, rfl⟩ | ⟨dir, name, e, rfl, -, -, rfl⟩ |
    ⟨dir, name, dir', name', e, rfl, -, -, -, -, rfl⟩
  · rfl
  · exact remove_root _ _
  · exact remove_root _ _

theorem apply_next (h : fs.apply op = some fs') : fs.next ≤ fs'.next := by
  rcases apply_cases h with ⟨dir, name, isDir, rfl, -, -, rfl⟩ | ⟨dir, name, e, rfl, -, -, rfl⟩ |
    ⟨dir, name, dir', name', e, rfl, -, -, -, -, rfl⟩
  · exact Nat.le_succ _
  · exact (remove_next _ _).ge
  · exact (remove_next _ _).ge

/-- what holds of the numbers and names of every file system -/
structure Wf (fs : Fs) : Prop where
  root : ∀ e ∈ fs.entries, e.ino ≠ fs.root
  below : ∀ i, fs.Exists i → i < fs.next
  names : ∀ e ∈ fs.entries, ValidName e.name

theorem Wf.apply (hwf : fs.Wf) (h : fs.apply op = some fs') : fs'.Wf := by
  have hroot := hwf.below fs.root (.inl rfl)
  have hmono := apply_next h
  refine ⟨fun e' he => ?_, fun i hi => ?_, fun e' he => ?_⟩
  · rw [apply_root h]
    rcases apply_ino h he with ⟨hnew, -⟩ | ⟨⟨e, he, hino⟩, -⟩
    · omega
    · exact hino ▸ hwf.root e he
  · rcases hi with rfl | ⟨e', he, rfl⟩
    · rw [apply_root h]
      omega
    · rcases apply_ino h he with ⟨hnew, hnext⟩ | ⟨⟨e, he, hino⟩, -⟩
      · omega
      · exact (hwf.below _ (.inr ⟨e, he, hino⟩)).trans_le hmono
  · rcases apply_cases h with ⟨dir, name, isDir, rfl, -, hv, rfl⟩ | ⟨dir, name, e, rfl, -, -, rfl⟩ |
      ⟨dir, name, dir', name', e, rfl, -, -, -, hv, rfl⟩
    · rcases List.mem_append.1 he with he | he
      · exact hwf.names e' he
      · rw [List.mem_singleton.1 he]
        exact hv
    · exact hwf.names e' (mem_remove he).1
    · obtain ⟨e₁, he, -, hname | hname⟩ := mem_relink he
      · exact hname ▸ hwf.names e₁ (mem_remove he).1
      · exact hname ▸ hv

/-- the nodes after an operation -/
theorem Exists.apply {i : ℕ} (hi : fs'.Exists i) (hwf : fs.Wf) (h : fs.apply op = some fs') :
    i = fs.next ∨ fs.Exists i ∧ ∀ t, fs.removed op = some t → i ≠ t.ino := by
  rcases hi with rfl | ⟨e', he, rfl⟩
  · refine .inr ⟨.inl (apply_root h), fun t ht => ?_⟩
    rw [apply_root h]
    cases op with
    | create => cases ht
    | delete dir name | rename _ _ dir name => exact (hwf.root t (List.mem_of_find?_eq_some ht)).symm
  · rcases apply_ino h he with ⟨hnew, -⟩ | ⟨hold, hne⟩
    · exact .inl hnew
    · exact .inr ⟨.inr hold, hne⟩

/-- an entry that is looked up has a valid name -/
theorem Wf.find (hwf : fs.Wf) {dir : ℕ} {name : String} {e : Entry} (h : fs.find dir name = some e) :
    ValidName name := by
  have hname := List.find?_some h
  simp only [decide_eq_true_eq] at hname
  exact hname.2 ▸ hwf.names e (List.mem_of_find?_eq_some h)

end Fs

end OsPractice.FileTree
