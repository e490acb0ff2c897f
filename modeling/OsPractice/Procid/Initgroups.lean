/-
`initgroups` (`procid/initgroups.c`), which takes the groups of a user from the group database. It reads on from where
the database's cursor stands, and does not put it to the beginning first.

`gidlist` is an array of `NGROUPS_MAX + 1` elements with anything in it; an assignment outside it makes the call `none`.
Texts have no NUL, and two of them compare equal when they are. What the system calls answer is given (`Kernel`).

Results:
- `scan_spec`: what the loop has in `gidlist`;
- `initgroups_spec`: when the groups are the right ones.
-/
import OsPractice.Core.Database
import OsPractice.Core.Bytes

namespace OsPractice.Initgroups

open Bytes Database

/-! ## The program -/

structure Group where
  /-- `gr_gid` -/
  gid : ℕ
  /-- `gr_mem` -/
  mem : List (List Byte)
  deriving DecidableEq, Repr

/-- what the system calls answer -/
structure Kernel where
  /-- `seteuid(0)` succeeds -/
  seteuidRoot : Bool
  setgroups : List ℕ → ℤ
  /-- `seteuid(euid)` succeeds -/
  seteuidBack : Bool

structure Outcome where
  ret : ℤ
  /-- `errno` is set to `EINVAL` -/
  einval : Bool
  /-- what `setgroups` is called with -/
  setgroups : Option (List ℕ)
  db : Db Group

/-- the inner loop: it stops at the first member with the user's name -/
def listed (user : List Byte) : List (List Byte) → Bool
  | [] => false
  | name :: mem => if name = user then true else listed user mem

section

variable (NGROUPS_MAX : ℕ)

/-- what the loop over the database comes to -/
inductive Scan where
  /-- there is one group too many -/
  | einval (db : Db Group)
  | done (db : Db Group) (gidlist : Vector ℕ (NGROUPS_MAX + 1)) (ngid : ℕ)

/-- the loop over the database; `none` is an assignment outside `gidlist` -/
def scan (user : List Byte) (db : Db Group) (gidlist : Vector ℕ (NGROUPS_MAX + 1)) (ngid : ℕ) :
    Option (Scan NGROUPS_MAX) :=
  match h : getent db with
  | none => some (.done db gidlist ngid)
  | some (grp, db') =>
    have := left_lt h
    if listed user grp.mem then
      if NGROUPS_MAX ≤ ngid then some (.einval db')
      else if hn : ngid < NGROUPS_MAX + 1 then scan user db' (gidlist.set ngid grp.gid) (ngid + 1)
      else none
    else scan user db' gidlist ngid
termination_by db.ahead.length

def initgroups (kernel : Kernel) (user : List Byte) (group : ℕ) (db : Db Group)
    (gidlist : Vector ℕ (NGROUPS_MAX + 1)) : Option Outcome :=
  (scan NGROUPS_MAX user db gidlist 0).bind fun
    | .einval db => some ⟨-1, true, none, endent db⟩
    | .done db gidlist ngid =>
      if NGROUPS_MAX ≤ ngid then some ⟨-1, true, none, endent db⟩
      else if hn : ngid < NGROUPS_MAX + 1 then
        let gidlist := gidlist.set ngid group
        let ngid := ngid + 1
        if kernel.seteuidRoot then
          let groups := gidlist.toList.take ngid
          if kernel.seteuidBack then some ⟨kernel.setgroups groups, false, some groups, endent db⟩
          else some ⟨-1, false, some groups, endent db⟩
        else some ⟨-1, false, none, endent db⟩
      else none

end

/-! ## What it is for -/

/-- the groups of a user, in the order of the database -/
def gids (user : List Byte) (entries : List Group) : List ℕ :=
  (entries.filter fun grp => user ∈ grp.mem).map Group.gid

/-- `setgroups` gets the groups of the user and the primary group, or the call fails as there are too many -/
def Right (NGROUPS_MAX : ℕ) (user : List Byte) (group : ℕ) (entries : List Group) (out : Outcome) : Prop :=
  if (gids user entries).length < NGROUPS_MAX then out.setgroups = some (gids user entries ++ [group])
  else out.ret = -1 ∧ out.einval ∧ out.setgroups = none

/-! ## The loop -/

theorem listed_iff {user : List Byte} {mem : List (List Byte)} : listed user mem ↔ user ∈ mem := by
  induction mem with
  | nil => simp [listed]
  | cons name mem ih =>
    rw [listed, List.mem_cons]
    split_ifs with h
    · simp [h]
    · simp [ih, Ne.symm h]

theorem gids_cons (user : List Byte) (grp : Group) (entries : List Group) :
    gids user (grp :: entries) = if listed user grp.mem then grp.gid :: gids user entries else gids user entries := by
  unfold gids
  split_ifs with h <;> rw [listed_iff] at h <;> simp [h]

theorem gids_append (user : List Byte) (l l' : List Group) : gids user (l ++ l') = gids user l ++ gids user l' := by
  simp [gids]

variable {N : ℕ}

/-- where the loop ends: with all groups behind the cursor, unless they are too many -/
def Scanned (user : List Byte) (entries : List Group) (gidlist : Vector ℕ (N + 1)) (ngid : ℕ) :
    Option (Scan N) → Prop
  | none => False
  | some (.einval _) => N < ngid + (gids user entries).length
  | some (.done _ gidlist' ngid') => ngid' ≤ N ∧ ngid' = ngid + (gids user entries).length ∧
      gidlist'.toList.take ngid' = gidlist.toList.take ngid ++ gids user entries

theorem scan_spec (user : List Byte) (db : Db Group) (gidlist : Vector ℕ (N + 1)) {ngid : ℕ} (hn : ngid ≤ N) :
    Scanned user db.ahead gidlist ngid (scan N user db gidlist ngid) := by
  fun_induction scan N user db gidlist ngid with
  | case1 db gidlist ngid hnone =>
    rw [ahead_of_none hnone]
    exact ⟨hn, rfl, (List.append_nil _).symm⟩
  | case2 db gidlist ngid grp db' hsome hlt hl hfull =>
    rw [ahead_of_some hsome, Scanned, gids_cons, if_pos hl, List.length_cons]
    omega
  | case3 db gidlist ngid grp db' hsome hlt hl hroom hlen ih =>
    specialize ih (by omega)
    rw [ahead_of_some hsome]
    revert ih
    cases scan N user db' (gidlist.set ngid grp.gid) (ngid + 1) with
    | none => exact id
    | some r =>
      cases r with
      | einval =>
        intro ih
        rw [Scanned] at ih ⊢
        rw [gids_cons, if_pos hl, List.length_cons]
        omega
      | done db' gidlist' ngid' =>
        rintro ⟨h1, h2, h3⟩
        rw [Scanned, gids_cons, if_pos hl, List.length_cons]
        rw [take_set] at h3
        exact ⟨h1, by omega, by simpa using h3⟩
  | case4 db gidlist ngid grp db' hsome hlt hl hroom hlen => exact absurd (Nat.lt_succ_of_le hn) hlen
  | case5 db gidlist ngid grp db' hsome hlt hl ih =>
    rw [ahead_of_some hsome]
    unfold Scanned at ih ⊢
    rw [gids_cons, if_neg hl]
    exact ih hn

/-! ## The call -/

/-- what `setgroups` is called with, and when the call fails with `EINVAL` -/
theorem initgroups_eq (kernel : Kernel) (user : List Byte) (group : ℕ) (db : Db Group) (gidlist : Vector ℕ (N + 1)) :
    ∃ out, initgroups N kernel user group db gidlist = some out ∧
      if (gids user db.ahead).length < N then
        out.einval = false ∧
          out.setgroups = if kernel.seteuidRoot then some (gids user db.ahead ++ [group]) else none
      else out.ret = -1 ∧ out.einval = true ∧ out.setgroups = none := by
  have hscan := scan_spec user db gidlist (Nat.zero_le N)
  unfold initgroups
  revert hscan
  cases scan N user db gidlist 0 with
  | none => exact False.elim
  | some r =>
    cases r with
    | einval db' =>
      intro hscan
      rw [Scanned, Nat.zero_add] at hscan
      have hmany : ¬ (gids user db.ahead).length < N := by omega
      simp only [if_neg hmany]
      exact ⟨_, rfl, rfl, rfl, rfl⟩
    | done db' gidlist' ngid' =>
      rintro ⟨h1, h2, h3⟩
      rw [Nat.zero_add] at h2
      rw [List.take_zero, List.nil_append] at h3
      simp only [Option.bind_some]
      by_cases hfull : N ≤ ngid'
      · have hmany : ¬ (gids user db.ahead).length < N := by omega
        simp only [if_pos hfull, if_neg hmany]
        exact ⟨_, rfl, rfl, rfl, rfl⟩
      · have hfew : (gids user db.ahead).length < N := by omega
        simp only [if_neg hfull, dif_pos (Nat.lt_succ_of_le h1), if_pos hfew, take_set, h3]
        split_ifs <;> exact ⟨_, rfl, rfl, rfl⟩

/-- **The groups.** For every database, cursor, user and primary group: no element behind the end of `gidlist` is
assigned. If the user is in fewer than `NGROUPS_MAX` groups, then the right ones are set if and only if none of them
stands before the cursor and the process may become root; otherwise the call fails as it should if and only if
`NGROUPS_MAX` of them stand behind the cursor. -/
theorem initgroups_spec (kernel : Kernel) (user : List Byte) (group : ℕ) (db : Db Group)
    (gidlist : Vector ℕ (N + 1)) :
    ∃ out, initgroups N kernel user group db gidlist = some out ∧
      (Right N user group db.entries out ↔
        if (gids user db.entries).length < N then gids user db.passed = [] ∧ kernel.seteuidRoot = true
        else N ≤ (gids user db.ahead).length) := by
  obtain ⟨out, hout, h⟩ := initgroups_eq kernel user group db gidlist
  refine ⟨out, hout, ?_⟩
  have hsplit : gids user db.entries = gids user db.passed ++ gids user db.ahead := by
    rw [← gids_append, passed_ahead]
  have hlen := congrArg List.length hsplit
  rw [List.length_append] at hlen
  rw [Right]
  by_cases hall : (gids user db.entries).length < N
  · have hahead : (gids user db.ahead).length < N := by omega
    rw [if_pos hahead] at h
    rw [if_pos hall, if_pos hall, h.2, hsplit]
    cases kernel.seteuidRoot <;> simp
  · rw [if_neg hall, if_neg hall]
    by_cases hahead : (gids user db.ahead).length < N
    · rw [if_pos hahead] at h
      simp [h.1, hahead]
    · rw [if_neg hahead] at h
      exact iff_of_true h (Nat.le_of_not_lt hahead)

/-- the database of one group, `7`, that lists the user; its cursor stands behind it -/
def readOnce : Db Group := ⟨[⟨7, [[97]]⟩], 1, le_rfl⟩

theorem not_right :
    ¬ ∀ (kernel : Kernel) (user : List Byte) (group : ℕ) (db : Db Group) (gidlist : Vector ℕ (65536 + 1)),
      kernel.seteuidRoot = true → ∃ out, initgroups 65536 kernel user group db gidlist = some out ∧
        Right 65536 user group db.entries out := by
  intro h
  obtain ⟨out, hout, hright⟩ := h ⟨true, fun _ => 0, true⟩ [97] 100 readOnce (Vector.replicate _ 0) rfl
  obtain ⟨out', hout', heq⟩ := initgroups_eq ⟨true, fun _ => 0, true⟩ [97] 100 readOnce (Vector.replicate (65536 + 1) 0)
  obtain rfl : out = out' := Option.some.inj (hout.symm.trans hout')
  have hall : gids [97] readOnce.entries = [7] := by decide
  have hahead : gids [97] readOnce.ahead = [] := by decide
  rw [Right, hall, if_pos (by decide)] at hright
  rw [hahead, if_pos (by decide), hright] at heq
  exact absurd heq.2 (by decide)

end OsPractice.Initgroups
