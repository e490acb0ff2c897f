/-
The directory watcher (`inotify/dirwatch.c`). It puts a watch on the directories that it finds below its argument, and
then displays the events that it reads.

`nftw` follows symbolic links, also out of the tree. At any path the system may refuse `stat`, `opendir` or the watch;
an error as `ELOOP` makes `nftw` give up. The watch on the argument itself has succeeded. The watches are set up before
the first operation.

A user creates, deletes and renames entries of the tree; an operation with the events that it raises is one step. A
`read` returns the events that fit into the buffer, and the loop over the buffer displays one event a step. The queue
does not overflow. An event without a name is displayed with an empty one (the program prints the bytes that follow in
its buffer). Each event carries the number of its operation, which the program does not see.

Results:
- `setUp_eq`: the watches are those on the directories that the walk comes to;
- `dirs_watched`: these are all directories of the tree if the system refuses nothing;
- `user_step`, `dirwatch_step`: a step keeps the watches and the events together with the operations so far (`Inv`);
- `report_iff`: all operations are reported if and only if each touches a watched directory of the beginning.
-/
import OsPractice.Core.Interleave
import OsPractice.Core.Inotify
import OsPractice.Core.Ftw

namespace OsPractice.Dirwatch

open Interleave FileTree Inotify Ftw

/-! ## The tree at the beginning -/

/-- the entries of a directory, in the order of `readdir`, with what is below them -/
inductive Entries where
  | nil
  /-- a file, or a symbolic link; `target` is the directory that the link leads to -/
  | file (name : String) (ino : ℕ) (target : Option ℕ) (next : Entries)
  | dir (name : String) (ino : ℕ) (sub next : Entries)
  deriving DecidableEq, Repr

/-- the entries of directory `i` and of all directories below it -/
def Entries.list (i : ℕ) : Entries → List Entry
  | .nil => []
  | .file name ino _ next => ⟨i, name, ino, false⟩ :: next.list i
  | .dir name ino sub next => ⟨i, name, ino, true⟩ :: (sub.list ino ++ next.list i)

/-- the directories among the entries and below them -/
def Entries.dirs : Entries → List ℕ
  | .nil => []
  | .file _ _ _ next => next.dirs
  | .dir _ ino sub next => ino :: (sub.dirs ++ next.dirs)

/-- the names in directory `i` and in all directories below it, with their directories and those that they lead to -/
def Entries.found (i : ℕ) : Entries → List (ℕ × String × Option ℕ)
  | .nil => []
  | .file name _ target next => (i, name, target) :: next.found i
  | .dir name ino sub next => (i, name, some ino) :: (sub.found ino ++ next.found i)

/-- `dirpath` and what is below it; a path is a list of names from `dirpath` on -/
structure Tree where
  root : ℕ
  entries : Entries
  /-- the names in the directories outside that links lead to -/
  outside : List (ℕ × String × Option ℕ)
  sys : System String
  /-- `inotify_add_watch` succeeds at a path below `dirpath` -/
  watch : List String → Bool
  nodup : (root :: (entries.list root).map Entry.ino).Nodup
  names : ((entries.list root).map fun e => (e.dir, e.name)).Nodup
  valid : ∀ e ∈ entries.list root, ValidName e.name
  apart : ∀ p ∈ outside, p.1 ∉ root :: (entries.list root).map Entry.ino
  /-- a link leads to no file of the tree as to a directory -/
  links : ∀ p ∈ entries.found root ++ outside, ∀ e ∈ entries.list root, p.2.2 = some e.ino → e.isDir = true

def Tree.found (t : Tree) : List (ℕ × String × Option ℕ) := t.entries.found t.root ++ t.outside

/-- the nodes of the tree, and the directories that names lead to -/
def Tree.numbers (t : Tree) : List ℕ :=
  t.root :: (t.entries.list t.root).map Entry.ino ++ t.found.filterMap fun p => p.2.2

def Tree.fs (t : Tree) : Fs where
  root := t.root
  entries := t.entries.list t.root
  next := t.numbers.foldr max 0 + 1

def Tree.dirs (t : Tree) : List ℕ := t.root :: t.entries.dirs

/-- the names in directory `i` -/
def Tree.listing (t : Tree) (i : ℕ) : List (String × Option ℕ) := (t.found.filter fun p => p.1 = i).map Prod.snd

/-! ## The program -/

def gl_mask : List Mask := [.create, .delete, .deleteSelf, .movedFrom, .movedTo]

/-- `process` for a path, and the directory that it leads to -/
def process (watch : List String → Bool) (ws : Watches) : List String × Option ℕ → Watches
  | (_, none) => ws
  | (fpath, some i) => if watch fpath then addWatch gl_mask i ws else ws

/-- `nftw(dirpath, process, 10, 0)` -/
def Tree.walk (t : Tree) : Walk String ℕ := nftw t.sys t.listing t.numbers.length t.root

/-- what `main` does before its loop -/
def setUp (t : Tree) : Watches := t.walk.calls.foldl (process t.watch) (addWatch gl_mask t.root fun _ => none)

def flag (e : Notice) (mask : Mask) (text : String) : String := if e.mask = mask then text else ""

def display_inotify_event (e : Notice) : String :=
  "event for: " ++ e.name ++ "\n" ++ flag e .create "IN_CREATE " ++ flag e .delete "IN_DELETE " ++
    flag e .deleteSelf "IN_CREATE " ++ flag e .movedFrom "IN_MOVED_FROM " ++ flag e .movedTo "IN_MOVED_TO " ++
    flag e .movedFrom "IN_MOVED_SELF " ++ "\n"

def BUFLEN : ℕ := 10 * (headerSize + NAME_MAX + 1)

inductive Proc where
  | user
  | dirwatch
  deriving DecidableEq, Repr

structure Shared where
  fs : Fs
  watches : Watches
  /-- the events that have not been read, with the number of the operation -/
  queue : List (ℕ × Notice)
  /-- how many operations there have been -/
  count : ℕ

inductive Local where
  | user
  -- dirwatch at `read`, and in the loop over the buffer
  | read
  | loop (events : List (ℕ × Notice))
  | ended
  deriving DecidableEq, Repr

inductive Event where
  | performed (op : Op)
  /-- a text for an event of operation `i` -/
  | displayed (i : ℕ) (text : String)
  deriving DecidableEq, Repr

/-- the choice is the next operation of the user -/
def prog : Prog Proc Op Shared Local Event := fun p op sh l =>
  match p, l with
  | .user, .user => (sh.fs.apply op).map fun fs =>
      (⟨fs, afterOp sh.watches sh.fs op,
        sh.queue ++ (delivered sh.watches sh.fs op).map fun n => (sh.count, n), sh.count + 1⟩, .user, [.performed op])
  | .dirwatch, .read =>
    if sh.queue = [] then none
    else
      match fits (fun e => eventSize e.2) BUFLEN sh.queue with
      -- EINVAL: the first event does not fit
      | [] => some (sh, .ended, [])
      | e :: events => some ({ sh with queue := sh.queue.drop (e :: events).length }, .loop (e :: events), [])
  | .dirwatch, .loop [] => some (sh, .read, [])
  | .dirwatch, .loop (e :: events) => some (sh, .loop events, [.displayed e.1 (display_inotify_event e.2)])
  | _, _ => none

abbrev Global := St Proc Shared Local

/-- `dirwatch` with its watches set up -/
def start (t : Tree) : Global where
  sh := ⟨t.fs, setUp t, [], 0⟩
  loc
    | .user => .user
    | .dirwatch => .read

/-! ## The watches at the beginning -/

/-- the directory that `main` watches, and those that `process` does -/
def IsWatched (t : Tree) (i : ℕ) : Prop := i = t.root ∨ ∃ c ∈ t.walk.calls, c.2 = some i ∧ t.watch c.1 = true

instance (t : Tree) (i : ℕ) : Decidable (IsWatched t i) := inferInstanceAs (Decidable (_ ∨ _))

theorem process_eq (watch : List String → Bool) (ws : Watches) (c : List String × Option ℕ) (i : ℕ) :
    process watch ws c i = if c.2 = some i ∧ watch c.1 = true then some gl_mask else ws i := by
  obtain ⟨fpath, j⟩ := c
  cases j with
  | none => simp [process]
  | some j =>
    by_cases hij : j = i
    · subst hij
      cases hw : watch fpath <;> simp [process, addWatch, hw]
    · cases hw : watch fpath <;> simp [process, addWatch, hw, hij, Ne.symm hij]

theorem foldl_process (watch : List String → Bool) (calls : List (List String × Option ℕ)) (ws : Watches) (i : ℕ) :
    calls.foldl (process watch) ws i =
      if ∃ c ∈ calls, c.2 = some i ∧ watch c.1 = true then some gl_mask else ws i := by
  induction calls generalizing ws with
  | nil => simp
  | cons c calls ih =>
    rw [List.foldl_cons, ih, process_eq]
    simp only [List.mem_cons, exists_eq_or_imp]
    by_cases hc : c.2 = some i ∧ watch c.1 = true
    · rw [if_pos hc, ite_self, if_pos (.inl hc)]
    · rw [if_neg hc]
      exact if_congr (or_iff_right hc).symm rfl rfl

theorem setUp_eq (t : Tree) (i : ℕ) : setUp t i = if IsWatched t i then some gl_mask else none := by
  rw [setUp, foldl_process]
  unfold IsWatched
  by_cases hi : i = t.root
  · subst hi
    simp [addWatch]
  · have hmain : addWatch gl_mask t.root (fun _ => none) i = none := Function.update_of_ne hi _ _
    rw [hmain]
    exact if_congr (or_iff_right hi).symm rfl rfl

theorem Tree.mem_listing {t : Tree} {i : ℕ} {x : String × Option ℕ} : x ∈ t.listing i ↔ (i, x) ∈ t.found := by
  simp [Tree.listing]

theorem Tree.found_closed (t : Tree) : Closed t.listing (· ∈ t.numbers) := fun i j name _ hj =>
  List.mem_append_right _ (List.mem_filterMap.2 ⟨(i, name, some j), Tree.mem_listing.1 hj, rfl⟩)

theorem Tree.below {t : Tree} {i : ℕ} (h : i ∈ t.numbers) : i < t.fs.next :=
  Nat.lt_succ_of_le (List.le_max_of_le h le_rfl)

theorem IsWatched.below {t : Tree} {i : ℕ} (h : IsWatched t i) : i < t.fs.next := by
  rcases h with rfl | ⟨c, hc, hi, -⟩
  · exact Tree.below List.mem_cons_self
  · exact Tree.below (nftw_found t.found_closed List.mem_cons_self _ (List.mem_map.2 ⟨c, hc, hi⟩))

theorem Tree.wf (t : Tree) : t.fs.Wf := by
  refine ⟨fun e he => ?_, fun i hi => ?_, t.valid⟩
  · exact fun hr => (List.nodup_cons.1 t.nodup).1 (List.mem_map.2 ⟨e, he, hr⟩)
  · refine Tree.below (List.mem_append_left _ ?_)
    rcases hi with rfl | ⟨e, he, rfl⟩
    · exact List.mem_cons_self
    · exact List.mem_cons_of_mem _ (List.mem_map_of_mem he)

/-- a set of directories that has directory `i` and what its directories lead to has all directories below `i` -/
theorem dirs_closed {P : ℕ → Prop} (es : Entries) {i : ℕ} (hi : P i)
    (hP : ∀ j k name, P j → (j, name, some k) ∈ es.found i → P k) {j : ℕ} (hj : j ∈ es.dirs) : P j := by
  induction es generalizing i with
  | nil => cases hj
  | file name ino target next ih =>
    exact ih hi (fun j k name hj hk => hP j k name hj (List.mem_cons_of_mem _ hk)) hj
  | dir name ino sub next ihs ihn =>
    have hino : P ino := hP i ino name hi List.mem_cons_self
    have hsub : ∀ j k name, P j → (j, name, some k) ∈ sub.found ino → P k := fun j k name hj hk =>
      hP j k name hj (List.mem_cons_of_mem _ (List.mem_append_left _ hk))
    have hnext : ∀ j k name, P j → (j, name, some k) ∈ next.found i → P k := fun j k name hj hk =>
      hP j k name hj (List.mem_cons_of_mem _ (List.mem_append_right _ hk))
    rcases List.mem_cons.1 hj with rfl | hj
    · exact hino
    · rcases List.mem_append.1 hj with hj | hj
      · exact ihs hino hsub hj
      · exact ihn hi hnext hj

/-- if the system refuses nothing, all directories of the tree are watched -/
theorem dirs_watched {t : Tree} (hsys : ∀ path, t.sys.stat path = .ok ∧ t.sys.opendir path = .ok)
    (hwatch : ∀ path, t.watch path = true) {i : ℕ} (hi : i ∈ t.dirs) : IsWatched t i := by
  have hok : t.walk.failed = false :=
    nftw_ok (hsys []).1 (fun path => by rw [(hsys path).1, (hsys path).2]; decide) _
  have hU : Closed t.listing (· ∈ t.numbers.toFinset) := fun i j name hi hj =>
    List.mem_toFinset.2 (t.found_closed i j name (List.mem_toFinset.1 hi) hj)
  obtain ⟨hroot, hclosed⟩ := nftw_complete (fun path => by rw [(hsys path).1, (hsys path).2]; decide) hU
    (List.mem_toFinset.2 List.mem_cons_self) (List.toFinset_card_le t.numbers) hok
  have hseen : some i ∈ t.walk.seen := by
    rcases List.mem_cons.1 hi with rfl | hi
    · exact hroot
    · exact dirs_closed (P := fun i => some i ∈ t.walk.seen) t.entries hroot
        (fun j k name hj hk => hclosed j k name hj (Tree.mem_listing.2 (List.mem_append_left _ hk))) hi
  obtain ⟨c, hc, hi⟩ := List.mem_map.1 hseen
  exact .inr ⟨c, hc, hi, hwatch c.1⟩

/-- a link that leads to itself, and then a directory -/
def loopFirst : Tree where
  root := 0
  entries := .file "loop" 1 none (.dir "d" 2 .nil .nil)
  outside := []
  sys := ⟨fun path => if path = ["loop"] then .error else .ok, fun _ => .ok⟩
  watch := fun _ => true
  nodup := by decide
  names := by decide
  valid := by decide
  apart := by decide
  links := by decide

example : 2 ∈ loopFirst.dirs ∧ ¬ IsWatched loopFirst 2 := by decide

/-! ## Operations and reports -/

def operationOf : Event → Option Op
  | .performed op => some op
  | .displayed _ _ => none

/-- the operations so far -/
def operations (tr : List Event) : List Op := tr.filterMap operationOf

@[simp] theorem operations_append (tr es : List Event) : operations (tr ++ es) = operations tr ++ operations es :=
  List.filterMap_append

/-- an event of operation `i` has been displayed -/
def Reported (tr : List Event) (i : ℕ) : Prop := ∃ text, .displayed i text ∈ tr

/-- the file system after some operations -/
def fsAfter (fs : Fs) (ops : List Op) : Option Fs := ops.foldlM (fun fs op => fs.apply op) fs

theorem fsAfter_concat (fs : Fs) (ops : List Op) (op : Op) :
    fsAfter fs (ops ++ [op]) = (fsAfter fs ops).bind fun fs => fs.apply op := by
  simp [fsAfter]

/-- the operation is made in a watched directory of the beginning, or removes one -/
def Touches (t : Tree) (fs : Fs) (op : Op) : Prop :=
  (∃ i ∈ op.dirs, IsWatched t i) ∨ ∃ e, fs.removed op = some e ∧ IsWatched t e.ino

/-- the `i`-th operation does -/
def TouchedAt (t : Tree) (ops : List Op) (i : ℕ) : Prop :=
  ∃ op fs, ops[i]? = some op ∧ fsAfter t.fs (ops.take i) = some fs ∧ Touches t fs op

theorem touchedAt_concat {t : Tree} {ops : List Op} {op : Op} {fs : Fs} (hfs : fsAfter t.fs ops = some fs) (i : ℕ) :
    TouchedAt t (ops ++ [op]) i ↔ TouchedAt t ops i ∨ i = ops.length ∧ Touches t fs op := by
  rcases Nat.lt_trichotomy i ops.length with hi | rfl | hi
  · have htake : (ops ++ [op]).take i = ops.take i := List.take_append_of_le_length hi.le
    simp only [TouchedAt, List.getElem?_append_left hi, htake, hi.ne, false_and, or_false]
  · have hnone : ¬ TouchedAt t ops ops.length := by
      rintro ⟨op', fs', hop, -⟩
      simp at hop
    simp only [hnone, false_or, true_and]
    simp [TouchedAt, hfs]
  · have hnone : ∀ ops' : List Op, ops'.length ≤ i → ¬ TouchedAt t ops' i := by
      rintro ops' hle ⟨op', fs', hop, -⟩
      rw [List.getElem?_eq_none hle] at hop
      cases hop
    simp [hnone ops hi.le, hnone (ops ++ [op]) (by simpa using hi), hi.ne']

/-! ## The books -/

/-- the events that dirwatch has in its buffer -/
def buffered : Local → List (ℕ × Notice)
  | .loop events => events
  | _ => []

/-- the events that have not been displayed -/
def undisplayed (s : Global) : List (ℕ × Notice) := buffered (s.loc .dirwatch) ++ s.sh.queue

structure Inv (t : Tree) (tr : List Event) (s : Global) : Prop where
  wf : s.sh.fs.Wf
  after : fsAfter t.fs (operations tr) = some s.sh.fs
  count : s.sh.count = (operations tr).length
  watch : ∀ i, s.sh.fs.Exists i → s.sh.watches i = if IsWatched t i then some gl_mask else none
  /-- a node that is made later is not watched -/
  fresh : ∀ i, s.sh.fs.next ≤ i → s.sh.watches i = none ∧ ¬ IsWatched t i
  user : s.loc .user = .user
  dirwatch : s.loc .dirwatch = .read ∨ ∃ events, s.loc .dirwatch = .loop events
  names : ∀ e ∈ undisplayed s, e.2.name = "" ∨ ValidName e.2.name
  /-- the events of operation `i` are displayed or on their way -/
  events : ∀ i, (Reported tr i ∨ ∃ e ∈ undisplayed s, e.1 = i) ↔ TouchedAt t (operations tr) i

theorem mem_gl_mask {mask : Mask} (h : mask ≠ .ignored) : mask ∈ gl_mask := by
  cases mask with
  | ignored => exact absurd rfl h
  | _ => decide

/-- while the watches are those of the beginning, an operation is delivered if and only if it touches one -/
theorem delivered_iff {t : Tree} {fs fs' : Fs} {ws : Watches} {op : Op}
    (hws : ∀ i, fs.Exists i → ws i = if IsWatched t i then some gl_mask else none) (h : fs.apply op = some fs') :
    delivered ws fs op ≠ [] ↔ Touches t fs op := by
  have hdirs : ∀ i ∈ op.dirs, fs.Exists i := fun i hi => (Fs.apply_dirs h hi).exists
  have hsome : ∀ i, fs.Exists i → ((ws i).isSome ↔ IsWatched t i) := by
    intro i hi
    rw [hws i hi]
    split_ifs with hd <;> simp [hd]
  rw [delivered_ne_nil]
  · constructor
    · rintro (⟨i, hi, hw⟩ | ⟨e, he, hw⟩)
      · exact .inl ⟨i, hi, (hsome i (hdirs i hi)).1 hw⟩
      · exact .inr ⟨e, he, (hsome e.ino (Fs.removed_exists he)).1 hw⟩
    · rintro (⟨i, hi, hd⟩ | ⟨e, he, hd⟩)
      · exact .inl ⟨i, hi, (hsome i (hdirs i hi)).2 hd⟩
      · exact .inr ⟨e, he, (hsome e.ino (Fs.removed_exists he)).2 hd⟩
  · intro n hn mask hmask
    have hex : fs.Exists n.ino := by
      rcases raised_ino hn with hd | ⟨e, he, hi⟩
      · exact hdirs n.ino hd
      · exact hi ▸ Fs.removed_exists he
    rw [hws n.ino hex] at hmask
    split_ifs at hmask
    exact Option.some_inj.1 hmask ▸ mem_gl_mask (raised_mask hn)

theorem user_step {t : Tree} {tr es : List Event} {s : Global} {op : Op} {sh : Shared} {l : Local} (h : Inv t tr s)
    (hs : prog .user op s.sh (s.loc .user) = some (sh, l, es)) : Inv t (tr ++ es) (s.move .user sh l) := by
  rw [h.user] at hs
  obtain ⟨fs, hfs, he⟩ := Option.map_eq_some_iff.1 hs
  cases he
  have hops : operations (tr ++ [.performed op]) = operations tr ++ [op] := by
    rw [operations_append]
    rfl
  have hloc : (s.move .user ⟨fs, afterOp s.sh.watches s.sh.fs op,
      s.sh.queue ++ (delivered s.sh.watches s.sh.fs op).map fun n => (s.sh.count, n), s.sh.count + 1⟩
      Local.user).loc .dirwatch = s.loc .dirwatch := by simp
  have hnext := h.fresh s.sh.fs.next le_rfl
  refine ⟨h.wf.apply hfs, ?_, ?_, ?_, ?_, by simp, ?_, ?_, ?_⟩
  · rw [hops, fsAfter_concat, h.after]
    exact hfs
  · rw [hops, List.length_append, ← h.count]
    rfl
  · intro i hi
    rcases hi.apply h.wf hfs with rfl | ⟨hold, hne⟩
    · rw [if_neg hnext.2]
      exact afterOp_none hnext.1
    · exact (afterOp_of_ne hne).trans (h.watch i hold)
  · intro i hi
    have hold := h.fresh i ((Fs.apply_next hfs).trans hi)
    exact ⟨afterOp_none hold.1, hold.2⟩
  · rw [hloc]
    exact h.dirwatch
  · intro e he
    rw [undisplayed, hloc, St.move_sh, ← List.append_assoc] at he
    rcases List.mem_append.1 he with he | he
    · exact h.names e he
    · obtain ⟨n, hn, rfl⟩ := List.mem_map.1 he
      exact delivered_name h.wf hfs hn
  · intro i
    have hrep : Reported (tr ++ [.performed op]) i ↔ Reported tr i := by simp [Reported]
    have hnew : (∃ e ∈ (delivered s.sh.watches s.sh.fs op).map fun n => (s.sh.count, n), e.1 = i) ↔
        i = (operations tr).length ∧ Touches t s.sh.fs op := by
      rw [← delivered_iff h.watch hfs, ← h.count]
      constructor
      · rintro ⟨e, he, rfl⟩
        obtain ⟨n, hn, rfl⟩ := List.mem_map.1 he
        exact ⟨rfl, List.ne_nil_of_mem hn⟩
      · rintro ⟨rfl, hne⟩
        obtain ⟨n, hn⟩ := List.exists_mem_of_ne_nil _ hne
        exact ⟨_, List.mem_map_of_mem hn, rfl⟩
    have hold := h.events i
    rw [hrep, undisplayed, hloc, St.move_sh, ← List.append_assoc, hops, touchedAt_concat h.after, ← hold, ← hnew]
    simp only [undisplayed, List.mem_append, or_and_right, exists_or, or_assoc]

/-- a step of dirwatch displays the first event of those that are not displayed, or none -/
theorem dirwatch_effect {s : Global} {op : Op} {sh : Shared} {l : Local} {es : List Event}
    (hloc : s.loc .dirwatch = .read ∨ ∃ events, s.loc .dirwatch = .loop events)
    (hnames : ∀ e ∈ undisplayed s, e.2.name = "" ∨ ValidName e.2.name)
    (hs : prog .dirwatch op s.sh (s.loc .dirwatch) = some (sh, l, es)) :
    sh.fs = s.sh.fs ∧ sh.watches = s.sh.watches ∧ sh.count = s.sh.count ∧ (l = .read ∨ ∃ events, l = .loop events) ∧
      ((es = [] ∧ undisplayed s = buffered l ++ sh.queue) ∨
        ∃ e, es = [.displayed e.1 (display_inotify_event e.2)] ∧ undisplayed s = e :: (buffered l ++ sh.queue)) := by
  unfold undisplayed at *
  rcases hloc with hloc | ⟨events, hloc⟩
  · rw [hloc] at hs hnames ⊢
    simp only [prog] at hs
    split_ifs at hs with hq
    have hroom : ∀ e ∈ s.sh.queue, eventSize e.2 ≤ BUFLEN := fun e he =>
      (eventSize_le (hnames e he)).trans (by decide)
    split at hs
    · rename_i hfits
      exact absurd hfits (fits_ne_nil hq hroom)
    · rename_i e events hfits
      cases hs
      have hall := fits_append (fun e : ℕ × Notice => eventSize e.2) BUFLEN s.sh.queue
      rw [hfits] at hall
      exact ⟨rfl, rfl, rfl, .inr ⟨_, rfl⟩, .inl ⟨rfl, hall.symm⟩⟩
  · rw [hloc] at hs ⊢
    cases events with
    | nil =>
      cases hs
      exact ⟨rfl, rfl, rfl, .inl rfl, .inl ⟨rfl, rfl⟩⟩
    | cons e events =>
      cases hs
      exact ⟨rfl, rfl, rfl, .inr ⟨_, rfl⟩, .inr ⟨e, rfl, rfl⟩⟩

theorem dirwatch_step {t : Tree} {tr es : List Event} {s : Global} {op : Op} {sh : Shared} {l : Local} (h : Inv t tr s)
    (hs : prog .dirwatch op s.sh (s.loc .dirwatch) = some (sh, l, es)) : Inv t (tr ++ es) (s.move .dirwatch sh l) := by
  obtain ⟨hfs, hws, hcount, hl, hes⟩ := dirwatch_effect h.dirwatch h.names hs
  have hund : undisplayed (s.move .dirwatch sh l) = buffered l ++ sh.queue := by simp [undisplayed]
  have hops : operations es = [] := by
    rcases hes with ⟨rfl, -⟩ | ⟨e, rfl, -⟩ <;> rfl
  refine ⟨?_, ?_, ?_, ?_, ?_, ?_, ?_, ?_, ?_⟩
  · exact hfs ▸ h.wf
  · rw [operations_append, hops, List.append_nil, St.move_sh, hfs]
    exact h.after
  · rw [operations_append, hops, List.append_nil, St.move_sh, hcount]
    exact h.count
  · rw [St.move_sh, hfs, hws]
    exact h.watch
  · rw [St.move_sh, hfs, hws]
    exact h.fresh
  · simpa using h.user
  · simpa using hl
  · rw [hund]
    intro e he
    refine h.names e ?_
    rcases hes with ⟨-, hold⟩ | ⟨e', -, hold⟩
    · rw [hold]
      exact he
    · rw [hold]
      exact List.mem_cons_of_mem _ he
  · intro i
    rw [operations_append, hops, List.append_nil, ← h.events i, hund]
    rcases hes with ⟨rfl, hold⟩ | ⟨e, rfl, hold⟩
    · rw [hold, List.append_nil]
    · have hrep : Reported (tr ++ [.displayed e.1 (display_inotify_event e.2)]) i ↔ Reported tr i ∨ e.1 = i := by
        simp only [Reported, List.mem_append, List.mem_singleton, Event.displayed.injEq, exists_or]
        refine or_congr_right ⟨fun ⟨_, hi, _⟩ => hi.symm, fun hi => ⟨_, hi.symm, rfl⟩⟩
      rw [hrep, hold]
      simp only [List.mem_cons, exists_eq_or_imp, or_assoc]

theorem run_inv {t : Tree} {as : List (Proc × Op)} {tr : List Event} {s : Global} (h : Run prog (start t) as tr s) :
    Inv t tr s := by
  refine h.inv_trace (I := Inv t) ⟨t.wf, rfl, rfl, fun i _ => setUp_eq t i, ?_, rfl, .inl rfl, ?_, ?_⟩ ?_
  · intro i hi
    have hd : ¬ IsWatched t i := fun hd => absurd hd.below (Nat.not_lt.2 hi)
    exact ⟨(setUp_eq t i).trans (if_neg hd), hd⟩
  · intro e he
    cases he
  · intro i
    constructor
    · rintro (⟨text, ht⟩ | ⟨e, he, -⟩)
      · cases ht
      · cases he
    · rintro ⟨op, fs, hop, -⟩
      cases hop
  · intro tr s p op sh l es hi hs
    cases p with
    | user => exact user_step hi hs
    | dirwatch => exact dirwatch_step hi hs

/-! ## Reading to the end -/

/-- the loop displays what is in the buffer -/
theorem alone_loop (sh : Shared) (events : List (ℕ × Notice)) :
    ∃ tr, Alone prog .dirwatch sh (.loop events) tr sh .read := by
  induction events with
  | nil => exact ⟨_, .single (c := .delete 0 "") rfl⟩
  | cons e events ih =>
    obtain ⟨tr, htr⟩ := ih
    exact ⟨_, .head (c := .delete 0 "") rfl htr⟩

/-- from `read` dirwatch comes to wait with an empty queue -/
theorem alone_read (sh : Shared) (hnames : ∀ e ∈ sh.queue, e.2.name = "" ∨ ValidName e.2.name) :
    ∃ tr sh', Alone prog .dirwatch sh .read tr sh' .read ∧ sh'.queue = [] := by
  induction hn : sh.queue.length using Nat.strong_induction_on generalizing sh with
  | _ n ih =>
    subst hn
    by_cases hq : sh.queue = []
    · exact ⟨[], sh, .refl _ _, hq⟩
    · have hroom : ∀ e ∈ sh.queue, eventSize e.2 ≤ BUFLEN := fun e he =>
        (eventSize_le (hnames e he)).trans (by decide)
      have hne : fits (fun e => eventSize e.2) BUFLEN sh.queue ≠ [] := fits_ne_nil hq hroom
      obtain ⟨e, events, hfits⟩ := List.exists_cons_of_ne_nil hne
      let rest := sh.queue.drop (e :: events).length
      have hread : prog .dirwatch (.delete 0 "") sh .read =
          some ({ sh with queue := rest }, .loop (e :: events), []) := by
        simp only [prog, if_neg hq, hfits, rest]
      have hlt : rest.length < sh.queue.length := by
        have hpos := List.length_pos_of_ne_nil hq
        simp only [rest, List.length_drop, List.length_cons]
        omega
      obtain ⟨tr, htr⟩ := alone_loop { sh with queue := rest } (e :: events)
      obtain ⟨tr', sh', htr', hend⟩ := ih _ hlt { sh with queue := rest }
        (fun e he => hnames e (List.mem_of_mem_drop he)) rfl
      exact ⟨tr ++ tr', sh', .silent hread (htr.trans htr'), hend⟩

theorem Inv.drain {t : Tree} {tr : List Event} {s : Global} (h : Inv t tr s) :
    ∃ tr' sh', Alone prog .dirwatch s.sh (s.loc .dirwatch) tr' sh' .read ∧ sh'.queue = [] := by
  have hqueue : ∀ e ∈ s.sh.queue, e.2.name = "" ∨ ValidName e.2.name := fun e he =>
    h.names e (List.mem_append_right _ he)
  obtain ⟨tr', sh', htr', hend⟩ := alone_read s.sh hqueue
  rcases h.dirwatch with hloc | ⟨events, hloc⟩
  · rw [hloc]
    exact ⟨tr', sh', htr', hend⟩
  · rw [hloc]
    obtain ⟨tr, htr⟩ := alone_loop s.sh events
    exact ⟨tr ++ tr', sh', htr.trans htr', hend⟩

theorem alone_operations {sh sh' : Shared} {l l' : Local} {tr : List Event}
    (h : Alone prog .dirwatch sh l tr sh' l') : operations tr = [] := by
  induction h with
  | refl => rfl
  | @head c x x' x'' l l' l'' es tr hs _ ih =>
    rw [operations_append, ih, List.append_nil]
    cases l with
    | user | ended => cases hs
    | read =>
      simp only [prog] at hs
      split_ifs at hs
      split at hs <;> cases hs <;> rfl
    | loop events =>
      cases events with
      | nil | cons => cases hs; rfl

/-- every operation so far is reported by the time dirwatch, left alone, waits for more -/
def Reports (tr : List Event) (s : Global) : Prop :=
  ∃ tr' sh', Alone prog .dirwatch s.sh (s.loc .dirwatch) tr' sh' .read ∧ sh'.queue = [] ∧
    ∀ i, i < (operations tr).length → Reported (tr ++ tr') i

/-- once dirwatch waits, the operations that are reported are those that touch a watched directory of the beginning -/
theorem reported_iff {t : Tree} {as : List (Proc × Op)} {tr tr' : List Event} {s : Global} {sh : Shared}
    (h : Run prog (start t) as tr s) (htr' : Alone prog .dirwatch s.sh (s.loc .dirwatch) tr' sh .read)
    (hend : sh.queue = []) (i : ℕ) : Reported (tr ++ tr') i ↔ TouchedAt t (operations tr) i := by
  obtain ⟨bs, hrun⟩ := htr'.run
  have hinv := run_inv (h.append hrun)
  have hev := hinv.events i
  have hund : undisplayed (s.move .dirwatch sh .read) = [] := by simp [undisplayed, buffered, hend]
  rw [hund, operations_append, alone_operations htr', List.append_nil] at hev
  rw [← hev]
  simp

/-- **Reports.** In every run: dirwatch reports all operations if and only if each of them is made in, or removes, a
watched directory of the beginning. -/
theorem report_iff {t : Tree} {as : List (Proc × Op)} {tr : List Event} {s : Global}
    (h : Run prog (start t) as tr s) :
    Reports tr s ↔ ∀ i, i < (operations tr).length → TouchedAt t (operations tr) i := by
  constructor
  · rintro ⟨tr', sh', htr', hend, hrep⟩ i hi
    exact (reported_iff h htr' hend i).1 (hrep i hi)
  · intro htouch
    obtain ⟨tr', sh', htr', hend⟩ := (run_inv h).drain
    exact ⟨tr', sh', htr', hend, fun i hi => (reported_iff h htr' hend i).2 (htouch i hi)⟩

/-- an empty directory -/
def emptyDir : Tree where
  root := 0
  entries := .nil
  outside := []
  sys := ⟨fun _ => .ok, fun _ => .ok⟩
  watch := fun _ => true
  nodup := by decide
  names := by decide
  valid := by decide
  apart := by decide
  links := by decide

/-- a file is made in the watched directory -/
theorem report_file : ∃ as tr s, Run prog (start emptyDir) as tr s ∧ operations tr = [.create 0 "f" false] ∧
    Reports tr s := by
  obtain ⟨s, tr, h, hops⟩ := exec_any_run prog (start emptyDir) [(.user, .create 0 "f" false)]
    (fun _ tr => operations tr = [.create 0 "f" false]) (by decide +kernel)
  refine ⟨_, tr, s, h, hops, (report_iff h).2 fun i hi => ?_⟩
  rw [hops] at hi ⊢
  obtain rfl : i = 0 := by simpa using hi
  exact ⟨_, _, rfl, rfl, .inl ⟨0, List.mem_cons_self, .inl rfl⟩⟩

/-- a directory is made, and then a file in it -/
theorem subdirectory_unreported : ∃ as tr s, Run prog (start emptyDir) as tr s ∧
    operations tr = [.create 0 "d" true, .create 1 "f" false] ∧ ¬ Reports tr s := by
  obtain ⟨s, tr, h, hops⟩ := exec_any_run prog (start emptyDir)
    [(.user, .create 0 "d" true), (.user, .create 1 "f" false)]
    (fun _ tr => operations tr = [.create 0 "d" true, .create 1 "f" false]) (by decide +kernel)
  refine ⟨_, tr, s, h, hops, ?_⟩
  rintro ⟨tr', sh', htr', hend, hrep⟩
  obtain ⟨op, fs, hop, -, htouch⟩ := (reported_iff h htr' hend 1).1 (hrep 1 (by rw [hops]; decide))
  rw [hops] at hop
  cases hop
  have hd : ¬ IsWatched emptyDir 1 := by decide
  simp [Touches, Op.dirs, Fs.removed, hd] at htouch

end OsPractice.Dirwatch
