/-
`_getpwnam` (`getpwnam.c`), a `getpwnam` made of `getpwent`. It reads on from where the database's cursor stands, goes
to the end, and gives a copy of the last entry it has met with the name.

Texts have no NUL, and two of them compare equal when they are; `strdup` does not fail. Other calls may have moved the
cursor before.

Results:
- `scan_eq`: the loop has the last entry with the name behind the cursor;
- `run_pos`: where a history of calls leaves the cursor;
- `getpwnam_first`: when the entry is the first one with the name.
-/
import OsPractice.Core.Database
import OsPractice.Core.Bytes

namespace OsPractice.Getpwnam

open Bytes Database

/-! ## The program -/

structure Passwd where
  pw_name : List Byte
  pw_passwd : List Byte
  pw_uid : ℕ
  pw_gid : ℕ
  pw_gecos : List Byte
  pw_dir : List Byte
  pw_shell : List Byte
  deriving DecidableEq, Repr

structure State where
  db : Db Passwd
  /-- the static `retv`; `none` before the first copy -/
  retv : Option Passwd

def copy (src : Passwd) : Passwd where
  pw_name := src.pw_name
  pw_passwd := src.pw_passwd
  pw_uid := src.pw_uid
  pw_gid := src.pw_gid
  pw_gecos := src.pw_gecos
  pw_dir := src.pw_dir
  pw_shell := src.pw_shell

/-- the loop, with `found` -/
def scan (name : List Byte) (s : State) (found : Bool) : Bool × State :=
  match h : getent s.db with
  | none => (found, s)
  | some (pw, db) =>
    have := left_lt h
    if pw.pw_name = name then scan name ⟨db, some (copy pw)⟩ true else scan name ⟨db, s.retv⟩ found
termination_by s.db.ahead.length

/-- what is returned points to `retv`, or is NULL -/
def _getpwnam (name : List Byte) (s : State) : Option Passwd × State :=
  let (found, s) := scan name s false
  let s := { s with db := endent s.db }
  if found then (s.retv, s) else (none, s)

/-- the calls of a process that uses the database -/
inductive Call where
  | getpwent
  | _getpwnam (name : List Byte)
  deriving DecidableEq, Repr

def call : Call → State → State
  | .getpwent, s =>
    match getent s.db with
    | none => s
    | some (_, db) => { s with db := db }
  | ._getpwnam name, s => (_getpwnam name s).2

def start (entries : List Passwd) : State := ⟨.fresh entries, none⟩

/-- the calls of a history, the first one first -/
def run (entries : List Passwd) (history : List Call) : State := history.foldl (fun s c => call c s) (start entries)

/-! ## The loop -/

theorem copy_eq (pw : Passwd) : copy pw = pw := rfl

/-- the last entry with a name -/
def last (name : List Byte) (entries : List Passwd) : Option Passwd := entries.reverse.find? (·.pw_name = name)

theorem last_cons (name : List Byte) (pw : Passwd) (entries : List Passwd) :
    last name (pw :: entries) = (last name entries).or (if pw.pw_name = name then some pw else none) := by
  rw [last, List.reverse_cons, List.find?_append]
  split_ifs with h <;> simp [last, h]

theorem last_append (name : List Byte) (l l' : List Passwd) :
    last name (l ++ l') = (last name l').or (last name l) := by
  rw [last, List.reverse_append, List.find?_append]
  rfl

theorem last_eq_none {name : List Byte} {entries : List Passwd} :
    last name entries = none ↔ ¬ ∃ pw ∈ entries, pw.pw_name = name := by
  simp [last]

/-- the loop has the last entry with the name behind the cursor -/
theorem scan_eq (name : List Byte) (s : State) (found : Bool) :
    (scan name s found).1 = (found || (last name s.db.ahead).isSome) ∧
      (scan name s found).2.retv = (last name s.db.ahead).or s.retv ∧
      (scan name s found).2.db.entries = s.db.entries := by
  fun_induction scan name s found with
  | case1 s found hnone =>
    rw [ahead_of_none hnone]
    simp [last]
  | case2 s found pw db hsome hlt hname ih =>
    obtain ⟨h1, h2, h3⟩ := ih
    rw [ahead_of_some hsome, last_cons, if_pos hname, h1, h2, h3, (getent_entries hsome).1]
    cases last name db.ahead <;> simp [copy_eq]
  | case3 s found pw db hsome hlt hname ih =>
    obtain ⟨h1, h2, h3⟩ := ih
    rw [ahead_of_some hsome, last_cons, if_neg hname, h1, h2, h3, (getent_entries hsome).1, Option.or_none]
    exact ⟨rfl, rfl, rfl⟩

theorem getpwnam_eq (name : List Byte) (s : State) :
    (_getpwnam name s).1 = last name s.db.ahead ∧ (_getpwnam name s).2.db = endent s.db := by
  obtain ⟨h1, h2, h3⟩ := scan_eq name s false
  have hend : endent (scan name s false).2.db = endent s.db := by rw [endent, endent, h3]
  simp only [_getpwnam]
  cases hlast : last name s.db.ahead with
  | none =>
    rw [hlast] at h1
    rw [if_neg (by simp [h1])]
    exact ⟨rfl, hend⟩
  | some pw =>
    rw [hlast] at h1 h2
    rw [if_pos (by simp [h1])]
    exact ⟨h2, hend⟩

/-! ## Histories -/

/-- how often `getpwent` has been called since the last `_getpwnam` -/
def since (history : List Call) : ℕ :=
  history.foldl (fun n c => match c with
    | .getpwent => n + 1
    | ._getpwnam _ => 0) 0

/-- where a history of calls leaves the cursor -/
theorem run_pos (entries : List Passwd) (history : List Call) :
    (run entries history).db.entries = entries ∧
      (run entries history).db.pos = min (since history) entries.length := by
  induction history using List.reverseRecOn with
  | nil => exact ⟨rfl, (Nat.zero_min _).symm⟩
  | append_singleton history c ih =>
    obtain ⟨hentries, hpos⟩ := ih
    have hrun : run entries (history ++ [c]) = call c (run entries history) := by simp [run]
    rw [hrun]
    cases c with
    | getpwent =>
      have hsince : since (history ++ [.getpwent]) = since history + 1 := by simp [since]
      rw [hsince, call]
      split
      · rename_i hnone
        have hend : entries.length ≤ (run entries history).db.pos := by
          have := congrArg List.length (ahead_of_none hnone)
          rw [Db.ahead, hentries, List.length_drop, List.length_nil] at this
          omega
        exact ⟨hentries, by omega⟩
      · rename_i hsome
        obtain ⟨h1, h2⟩ := getent_entries hsome
        have hle := (run entries history).db.pos_le
        have hlen := congrArg List.length (ahead_of_some hsome)
        rw [Db.ahead, hentries, List.length_drop, List.length_cons] at hlen
        exact ⟨h1.trans hentries, by rw [h2]; omega⟩
    | _getpwnam name =>
      have hsince : since (history ++ [._getpwnam name]) = 0 := by simp [since]
      rw [hsince, call, (getpwnam_eq name _).2, Nat.zero_min]
      exact ⟨hentries, rfl⟩

/-- **The first entry.** For every database, name and history of calls: `_getpwnam` gives the first entry with the name,
and NULL when there is none, if and only if, when there is one, an entry with the name stands at or behind the cursor,
and the last entry with the name is the same as the first. -/
theorem getpwnam_first (entries : List Passwd) (name : List Byte) (history : List Call) :
    (_getpwnam name (run entries history)).1 = entries.find? (·.pw_name = name) ↔
      ((∃ pw ∈ entries, pw.pw_name = name) →
        (∃ pw ∈ entries.drop (since history), pw.pw_name = name) ∧
          last name entries = entries.find? (·.pw_name = name)) := by
  have hahead : (run entries history).db.ahead = entries.drop (since history) := by
    obtain ⟨h1, h2⟩ := run_pos entries history
    rw [Db.ahead, h1, h2]
    rcases le_total (since history) entries.length with h | h
    · rw [Nat.min_eq_left h]
    · rw [Nat.min_eq_right h, List.drop_length, List.drop_eq_nil_of_le h]
  rw [(getpwnam_eq name _).1, hahead]
  by_cases hex : ∃ pw ∈ entries, pw.pw_name = name
  · rw [forall_prop_of_true hex]
    by_cases hbehind : ∃ pw ∈ entries.drop (since history), pw.pw_name = name
    · have hlast : last name entries = last name (entries.drop (since history)) := by
        obtain ⟨pw, hpw⟩ := Option.ne_none_iff_exists'.1 fun hnone => last_eq_none.1 hnone hbehind
        calc last name entries
            = last name (entries.take (since history) ++ entries.drop (since history)) := by rw [List.take_append_drop]
          _ = (last name (entries.drop (since history))).or (last name (entries.take (since history))) :=
              last_append ..
          _ = last name (entries.drop (since history)) := by rw [hpw, Option.some_or]
      rw [and_iff_right hbehind, hlast]
    · have hfirst : entries.find? (·.pw_name = name) ≠ none := by simpa using hex
      rw [last_eq_none.2 hbehind]
      exact iff_of_false hfirst.symm fun h => hbehind h.1
  · have hfirst : entries.find? (·.pw_name = name) = none := by simpa using hex
    have hbehind : ¬ ∃ pw ∈ entries.drop (since history), pw.pw_name = name := fun ⟨pw, hpw, hname⟩ =>
      hex ⟨pw, List.mem_of_mem_drop hpw, hname⟩
    rw [last_eq_none.2 hbehind, hfirst]
    exact iff_of_true rfl fun h => absurd h hex

/-- two entries of the name `r`, with the shells `a` and `b` -/
def twice : List Passwd := [⟨[114], [], 0, 0, [], [], [97]⟩, ⟨[114], [], 0, 0, [], [], [98]⟩]

/-- the second entry is given -/
theorem not_getpwnam_first :
    ¬ ∀ (entries : List Passwd) (name : List Byte) (history : List Call),
      (_getpwnam name (run entries history)).1 = entries.find? (·.pw_name = name) := by
  intro h
  have hfirst := h twice [114] []
  rw [(getpwnam_eq _ _).1] at hfirst
  revert hfirst
  decide

end OsPractice.Getpwnam
