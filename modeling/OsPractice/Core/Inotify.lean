/-
Inotify on a file tree. Library: nothing here names a program.

A watch is on a node, with the mask of the events that are wanted; it stays when the node is renamed, and goes with
the node. An operation raises events for the directories it is made in and for a node that it removes (which nobody has
open); those that are wanted are delivered. A watch that goes is reported (IN_IGNORED).

Results:
- `delivered_ne_nil`: with masks that want everything, an operation is reported if and only if it touches a watched
  node;
- `eventSize_le`: no event is larger than one with a name of `NAME_MAX` bytes;
- `fits_append`, `fits_ne_nil`: what a read returns.
-/
import OsPractice.Core.FileTree

namespace OsPractice.Inotify

open FileTree

inductive Mask where
  | create
  | delete
  | deleteSelf
  | movedFrom
  | movedTo
  | ignored
  deriving DecidableEq, Repr

/-- an event on the watched node `ino`; `name` is empty for an event on the node itself -/
structure Notice where
  ino : ℕ
  mask : Mask
  name : String
  deriving DecidableEq, Repr

/-- the masks of the watches -/
abbrev Watches := ℕ → Option (List Mask)

/-- `inotify_add_watch` -/
def addWatch (mask : List Mask) (i : ℕ) (ws : Watches) : Watches := Function.update ws i (some mask)

/-- the events for the directories that an operation is made in -/
def raisedDirs : Op → List Notice
  | .create dir name _ => [⟨dir, .create, name⟩]
  | .delete dir name => [⟨dir, .delete, name⟩]
  | .rename dir name dir' name' => [⟨dir, .movedFrom, name⟩, ⟨dir', .movedTo, name'⟩]

/-- the event for the node that an operation removes -/
def raisedSelf (fs : Fs) (op : Op) : List Notice := (fs.removed op).toList.map fun t => ⟨t.ino, .deleteSelf, ""⟩

def raised (fs : Fs) (op : Op) : List Notice := raisedDirs op ++ raisedSelf fs op

def wanted (ws : Watches) (n : Notice) : Bool :=
  match ws n.ino with
  | none => false
  | some mask => n.mask ∈ mask

/-- the events for the watches that go with their node -/
def dropped (ws : Watches) (fs : Fs) (op : Op) : List Notice :=
  ((fs.removed op).toList.filter fun t => (ws t.ino).isSome).map fun t => ⟨t.ino, .ignored, ""⟩

/-- what a watch on the node that an operation removes delivers -/
def deliveredSelf (ws : Watches) (fs : Fs) (op : Op) : List Notice :=
  (raisedSelf fs op).filter (wanted ws) ++ dropped ws fs op

/-- what an operation puts into the queue -/
def delivered (ws : Watches) (fs : Fs) (op : Op) : List Notice :=
  match op with
  -- the node goes before the directory is told
  | .delete _ _ => deliveredSelf ws fs op ++ (raisedDirs op).filter (wanted ws)
  | _ => (raisedDirs op).filter (wanted ws) ++ deliveredSelf ws fs op

theorem mem_delivered {ws : Watches} {fs : Fs} {op : Op} {n : Notice} :
    n ∈ delivered ws fs op ↔ (n ∈ raised fs op ∧ wanted ws n = true) ∨ n ∈ dropped ws fs op := by
  unfold delivered
  split
  all_goals
    simp only [deliveredSelf, raised, List.mem_append, List.mem_filter]
    tauto

/-- the watches after an operation -/
def afterOp (ws : Watches) (fs : Fs) (op : Op) : Watches :=
  match fs.removed op with
  | none => ws
  | some t => Function.update ws t.ino none

theorem afterOp_of_ne {ws : Watches} {fs : Fs} {op : Op} {i : ℕ} (h : ∀ t, fs.removed op = some t → i ≠ t.ino) :
    afterOp ws fs op i = ws i := by
  unfold afterOp
  cases ht : fs.removed op with
  | none => rfl
  | some t => exact Function.update_of_ne (h t ht) _ _

theorem afterOp_none {ws : Watches} {fs : Fs} {op : Op} {i : ℕ} (h : ws i = none) : afterOp ws fs op i = none := by
  unfold afterOp
  cases fs.removed op with
  | none => exact h
  | some t =>
    by_cases hi : i = t.ino
    · subst hi
      exact Function.update_self _ _ _
    · exact (Function.update_of_ne hi _ _).trans h

theorem mem_raisedSelf {fs : Fs} {op : Op} {n : Notice} (h : n ∈ raisedSelf fs op) :
    n.name = "" ∧ n.mask = .deleteSelf ∧ ∃ t, fs.removed op = some t ∧ n.ino = t.ino := by
  obtain ⟨t, ht, rfl⟩ := List.mem_map.1 h
  exact ⟨rfl, rfl, t, by simpa using ht, rfl⟩

/-- what an operation raises is never the report of a watch that goes -/
theorem raised_mask {fs : Fs} {op : Op} {n : Notice} (h : n ∈ raised fs op) : n.mask ≠ .ignored := by
  rcases List.mem_append.1 h with h | h
  · cases op <;> simp only [raisedDirs, List.mem_cons, List.not_mem_nil, or_false] at h
    case create | delete => simp [h]
    case rename => rcases h with rfl | rfl <;> simp
  · simp [(mem_raisedSelf h).2.1]

/-- an event is about a directory that the operation is made in, or about the node that it removes -/
theorem raised_ino {fs : Fs} {op : Op} {n : Notice} (h : n ∈ raised fs op) :
    n.ino ∈ op.dirs ∨ ∃ t, fs.removed op = some t ∧ n.ino = t.ino := by
  rcases List.mem_append.1 h with h | h
  · left
    cases op <;> simp only [raisedDirs, List.mem_cons, List.not_mem_nil, or_false] at h
    case create | delete => simp [h, Op.dirs]
    case rename => rcases h with rfl | rfl <;> simp [Op.dirs]
  · exact .inr (mem_raisedSelf h).2.2

theorem exists_raised (fs : Fs) {op : Op} {i : ℕ} (h : i ∈ op.dirs) : ∃ n ∈ raised fs op, n.ino = i := by
  have hdirs : ∃ n ∈ raisedDirs op, n.ino = i := by
    cases op <;> simp only [Op.dirs, List.mem_cons, List.not_mem_nil, or_false] at h
    case create | delete => exact ⟨_, List.mem_cons_self, h.symm⟩
    case rename =>
      rcases h with h | h
      · exact ⟨_, List.mem_cons_self, h.symm⟩
      · exact ⟨_, List.mem_cons_of_mem _ List.mem_cons_self, h.symm⟩
  obtain ⟨n, hn, hi⟩ := hdirs
  exact ⟨n, List.mem_append_left _ hn, hi⟩

/-- **Delivery.** An operation is reported if and only if it touches a watched node. -/
theorem delivered_ne_nil {ws : Watches} {fs : Fs} {op : Op}
    (hmask : ∀ n ∈ raised fs op, ∀ mask, ws n.ino = some mask → n.mask ∈ mask) :
    delivered ws fs op ≠ [] ↔
      (∃ i ∈ op.dirs, (ws i).isSome) ∨ ∃ t, fs.removed op = some t ∧ (ws t.ino).isSome := by
  have hwanted : ∀ n ∈ raised fs op, (wanted ws n = true ↔ (ws n.ino).isSome) := by
    intro n hn
    unfold wanted
    cases hw : ws n.ino with
    | none => simp
    | some mask => simpa using hmask n hn mask hw
  constructor
  · intro h
    obtain ⟨n, hn⟩ := List.exists_mem_of_ne_nil _ h
    rcases mem_delivered.1 hn with ⟨hr, hw⟩ | hn
    · rw [hwanted n hr] at hw
      rcases raised_ino hr with hd | ⟨t, ht, hi⟩
      · exact .inl ⟨n.ino, hd, hw⟩
      · exact .inr ⟨t, ht, hi ▸ hw⟩
    · obtain ⟨t, ht, rfl⟩ := List.mem_map.1 hn
      obtain ⟨ht, hw⟩ := List.mem_filter.1 ht
      exact .inr ⟨t, by simpa using ht, hw⟩
  · rintro (⟨i, hi, hw⟩ | ⟨t, ht, hw⟩)
    · obtain ⟨n, hn, rfl⟩ := exists_raised fs hi
      exact List.ne_nil_of_mem (mem_delivered.2 (.inl ⟨hn, (hwanted n hn).2 hw⟩))
    · refine List.ne_nil_of_mem (mem_delivered.2 (.inr (List.mem_map.2 ⟨t, List.mem_filter.2 ⟨?_, hw⟩, rfl⟩)))
      simpa using ht

/-! ## The queue -/

/-- `sizeof(struct inotify_event)` -/
def headerSize : ℕ := 16

/-- the size of an event with its name, which is padded with NULs -/
def eventSize (n : Notice) : ℕ :=
  headerSize + if n.name = "" then 0 else (n.name.utf8ByteSize + 1 + 15) / 16 * 16

theorem delivered_name {ws : Watches} {fs fs' : Fs} {op : Op} {n : Notice} (hwf : fs.Wf) (h : fs.apply op = some fs')
    (hn : n ∈ delivered ws fs op) : n.name = "" ∨ ValidName n.name := by
  rcases mem_delivered.1 hn with ⟨hr, -⟩ | hn
  · rcases List.mem_append.1 hr with hr | hr
    · right
      rcases Fs.apply_cases h with ⟨dir, name, isDir, rfl, -, hv, -⟩ | ⟨dir, name, e, rfl, -, he, -⟩ |
        ⟨dir, name, dir', name', e, rfl, -, -, he, hv, -⟩
      · rw [List.mem_singleton.1 hr]
        exact hv
      · rw [List.mem_singleton.1 hr]
        exact hwf.find he
      · rcases List.mem_cons.1 hr with rfl | hr
        · exact hwf.find he
        · rw [List.mem_singleton.1 hr]
          exact hv
    · exact .inl (mem_raisedSelf hr).1
  · obtain ⟨t, -, rfl⟩ := List.mem_map.1 hn
    exact .inl rfl

theorem eventSize_le {n : Notice} (h : n.name = "" ∨ ValidName n.name) :
    eventSize n ≤ headerSize + (NAME_MAX + 1) := by
  unfold eventSize
  split_ifs with hn
  · omega
  · have hv : n.name.utf8ByteSize ≤ NAME_MAX := (h.resolve_left hn).2
    unfold NAME_MAX at *
    omega

/-- the events that a read with so much room returns -/
def fits {E : Type} (size : E → ℕ) : ℕ → List E → List E
  | _, [] => []
  | room, e :: es => if size e ≤ room then e :: fits size (room - size e) es else []

theorem fits_append {E : Type} (size : E → ℕ) (room : ℕ) (es : List E) :
    fits size room es ++ es.drop (fits size room es).length = es := by
  induction es generalizing room with
  | nil => rfl
  | cons e es ih =>
    simp only [fits]
    split_ifs
    · simp [ih]
    · rfl

theorem fits_ne_nil {E : Type} {size : E → ℕ} {room : ℕ} {es : List E} (hne : es ≠ []) (h : ∀ e ∈ es, size e ≤ room) :
    fits size room es ≠ [] := by
  cases es with
  | nil => exact absurd rfl hne
  | cons e es =>
    rw [fits, if_pos (h e List.mem_cons_self)]
    exact List.cons_ne_nil _ _

end OsPractice.Inotify
