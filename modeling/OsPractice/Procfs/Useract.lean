/-
The processes of a user (`procfs/useract.c`). The program goes through the entries of `/proc`, takes those whose names
`strtol` reads as another number than 0 for processes, and looks through the status file of each for the lines with the
name and the user.

The numbers of processes are kept in an `int`, and the user ID with all bits set stands for a user that does not exist.

`/proc` does not change while it is read, and `opendir`, `readdir` and `snprintf` do not fail. What the local variables
of `wtchprocstatus` have in them when it is called is arbitrary.

Results:
- `readStatus_text`: what is printed for a status file;
- `visit_eq`: what is printed for an entry;
- `lists_users`: the processes that are printed.
-/
import OsPractice.Core.CString
import OsPractice.Core.Decimal
import OsPractice.Core.Fields
import OsPractice.Core.Lines

namespace OsPractice.Useract

open Bytes CString Decimal Fields Lines

/-! ## `/proc` -/

def PATH_MAX : ℕ := 4096

def STRUID_MAX_SIZE : ℕ := 1000

def newline : Byte := 10

def tab : Byte := 9

/-- `Name:` -/
def NAME : List Byte := [78, 97, 109, 101, 58]

/-- `Uid:` -/
def UID : List Byte := [85, 105, 100, 58]

/-- a line of a status file, without its newline -/
structure IsLine (l : List Byte) : Prop where
  newline : newline ∉ l
  nul : 0 ∉ l
  length : l.length < 998

/-- a line about something else than the name and the user -/
structure Other (l : List Byte) : Prop extends IsLine l where
  name : ¬ NAME <+: l
  uid : ¬ UID <+: l

def nameLine (name : List Byte) : List Byte := NAME ++ tab :: name

def uidLine (uid ids : List Byte) : List Byte := UID ++ tab :: (uid ++ tab :: ids)

/-- a status file: its lines with the name and the user ID, and those around them -/
structure Status where
  before : List (List Byte)
  name : List Byte
  between : List (List Byte)
  uid : List Byte
  /-- the other user IDs -/
  ids : List Byte
  after : List (List Byte)
  name_line : IsLine (nameLine name)
  name_token : name ≠ [] ∧ tab ∉ name
  uid_line : IsLine (uidLine uid ids)
  uid_token : uid ≠ [] ∧ tab ∉ uid
  other : ∀ l ∈ before ++ between ++ after, Other l

/-- the text that has the lines `ls` -/
def joined (ls : List (List Byte)) : List Byte := (ls.map (· ++ [newline])).flatten

def Status.text (st : Status) : List Byte :=
  joined (st.before ++ nameLine st.name :: (st.between ++ uidLine st.uid st.ids :: st.after))

/-- an entry of `/proc`, and its status file if that can be opened -/
structure Entry where
  name : List Byte
  status : Option Status

/-- the numeral of a positive number -/
def IsPid (name : List Byte) : Prop := name = numeral (value name) ∧ 0 < value name

instance (name : List Byte) : Decidable (IsPid name) := inferInstanceAs (Decidable (_ ∧ _))

/-- the processes are the entries that have numerals for names -/
structure Proc where
  /-- in the order of the directory -/
  entries : List Entry
  nodup : (entries.map Entry.name).Nodup
  name_length : ∀ e ∈ entries, e.name.length ≤ 255
  name_bytes : ∀ e ∈ entries, 0 ∉ e.name ∧ 47 ∉ e.name
  pids : ∀ e ∈ entries, IsPid e.name ∨ (strtoll e.name).1 = 0

/-- `/proc/NAME/status` -/
def statusPath (name : List Byte) : List Byte :=
  [47, 112, 114, 111, 99, 47] ++ (name ++ [47, 115, 116, 97, 116, 117, 115])

/-- `fopen`: what is in the file that has the path -/
def fopen (proc : Proc) (path : List Byte) : Option (List Byte) :=
  (proc.entries.find? fun e => statusPath e.name = path).bind fun e => e.status.map Status.text

/-! ## The program -/

/-- `sscanf(path, "/proc/%d/status", &pid)`: the value of `pid` after it -/
def scanPid (path : List Byte) (pid : BitVec 32) : BitVec 32 :=
  let s := path.drop 6
  let (n, endp) := strtoll s
  -- no number behind `/proc/`
  if path.take 6 ≠ [47, 112, 114, 111, 99, 47] ∨ endp.length = s.length then pid else BitVec.ofInt 32 n

/-- `strncpy(arr, src, 999)`, and the newline is replaced by a NUL -/
def copyLine (arr src : List Byte) : List Byte :=
  let arr := strncpy arr src 999
  arr.set ((cstring arr).takeWhile (· ≠ newline)).length 0

/-- the loop over the lines: what is printed -/
def readStatus (pid : BitVec 32) (struid file buf programname uidline : List Byte) : List (ℤ × List Byte) :=
  match _h : fgets newline 1000 file with
  | none => []
  | some (c, rest) =>
    let buf := fill buf (c ++ [0])
    let programname :=
      if strncmp (cstring buf) NAME 5 = 0 then copyLine programname (cstring (buf.drop 6)) else programname
    if strncmp (cstring buf) UID 4 = 0 then
      match strtok tab (cstring (copyLine uidline (cstring (buf.drop 5)))) with
      | none => []
      | some (uid_str, _) => if uid_str = struid then [(pid.toInt, cstring programname)] else []
    else readStatus pid struid rest buf programname uidline
termination_by file.length
decreasing_by exact fgets_length (by norm_num) _h

section

variable (proc : Proc) (stack : List Byte → List Byte × BitVec 32)

/-- `stack path` is what `buf` and `pid` have in them -/
def wtchprocstatus (path struid : List Byte) : List (ℤ × List Byte) :=
  match fopen proc path with
  | none => []
  | some file =>
    readStatus (scanPid path (stack path).2) struid file (stack path).1 (List.replicate 1000 0) (List.replicate 1000 0)

/-- an entry of the directory -/
def visit (struid d_name : List Byte) : List (ℤ × List Byte) :=
  if d_name = [46] ∨ d_name = [46, 46] then []
  else
    let pid := BitVec.ofInt 32 (strtoll d_name).1
    if pid = 0 then []
    else wtchprocstatus proc stack ((statusPath d_name).take (PATH_MAX - 1)) struid

/-- the user ID with all bits set -/
def noUser : BitVec 32 := BitVec.allOnes 32

/-- `getpwnam` gives `pw_uid`; `none` when the program exits with an error -/
def useract (pw_uid : Option (BitVec 32)) : Option (List (ℤ × List Byte)) :=
  let target_uid := pw_uid.getD noUser
  if target_uid = noUser then none
  else
    let struid := (numeral target_uid.toNat).take (STRUID_MAX_SIZE - 1)
    some (proc.entries.flatMap fun e => visit proc stack struid e.name)

end

/-! ## What it is for -/

/-- the number and the name of the process if it is one of the user -/
def Entry.ofUser (uid : BitVec 32) (e : Entry) : Option (ℤ × List Byte) :=
  e.status.bind fun st =>
    if IsPid e.name ∧ st.uid = numeral uid.toNat then some ((value e.name : ℤ), st.name) else none

/-- the processes of the user, in the order of the directory -/
def users (proc : Proc) (uid : BitVec 32) : List (ℤ × List Byte) := proc.entries.filterMap (Entry.ofUser uid)

/-! ## Lines -/

theorem joined_cons (l : List Byte) (ls : List (List Byte)) : joined (l :: ls) = l ++ newline :: joined ls := by
  simp [joined]

theorem joined_append (ls ls' : List (List Byte)) : joined (ls ++ ls') = joined ls ++ joined ls' := by simp [joined]

/-- the test for a header -/
theorem strncmp_line {hd l : List Byte} (hnul : 0 ∉ hd) (hline : newline ∉ hd) (h : 0 ∉ l) :
    strncmp (l ++ [newline]) hd hd.length = 0 ↔ hd <+: l := by
  have hl : 0 ∉ l ++ [newline] := by
    rw [List.mem_append, not_or]
    exact ⟨h, by decide⟩
  rw [strncmp_eq_zero hl hnul, List.take_length, eq_comm, ← List.prefix_iff_eq_take, List.prefix_concat_iff]
  refine or_iff_right fun heq => hline ?_
  rw [heq]
  simp

/-- the text in the array after a line has been copied -/
theorem cstring_copyLine {w : List Byte} (hline : newline ∉ w) (hnul : 0 ∉ w) (hlen : w.length + 1 < 999)
    (arr : List Byte) : cstring (copyLine arr (w ++ [newline])) = w := by
  have hsrc : 0 ∉ w ++ [newline] := by
    rw [List.mem_append, not_or]
    exact ⟨hnul, by decide⟩
  have hlen' : (w ++ [newline]).length < 999 := by simpa using hlen
  obtain ⟨rest, hrest⟩ := strncpy_eq hlen' arr
  have hcut : (w ++ [newline]).takeWhile (· ≠ newline) = w := takeWhile_ne hline []
  rw [copyLine]
  simp only [hrest, cstring_append hsrc, hcut]
  rw [List.append_assoc, List.set_append_right _ _ le_rfl, Nat.sub_self]
  exact cstring_append hnul _

/-! ## The status file -/

/-- a line that is read, with what is in the buffer after it -/
theorem readStatus_line {l : List Byte} (h : IsLine l) (pid : BitVec 32)
    (struid rest buf programname uidline : List Byte) :
    readStatus pid struid (l ++ newline :: rest) buf programname uidline =
      let buf := fill buf ((l ++ [newline]) ++ [0])
      let programname := if NAME <+: l then copyLine programname (cstring (buf.drop 6)) else programname
      if UID <+: l then
        match strtok tab (cstring (copyLine uidline (cstring (buf.drop 5)))) with
        | none => []
        | some (uid_str, _) => if uid_str = struid then [(pid.toInt, cstring programname)] else []
      else readStatus pid struid rest buf programname uidline := by
  have hget : fgets newline 1000 (l ++ newline :: rest) = some (l ++ [newline], rest) :=
    fgets_line h.newline (by have := h.length; omega) rest
  have htext : cstring (fill buf ((l ++ [newline]) ++ [0])) = l ++ [newline] := by
    rw [fill, List.append_assoc, List.singleton_append]
    refine cstring_append ?_ _
    rw [List.mem_append, not_or]
    exact ⟨h.nul, by decide⟩
  have hname : strncmp (l ++ [newline]) NAME 5 = 0 ↔ NAME <+: l := strncmp_line (by decide) (by decide) h.nul
  have huid : strncmp (l ++ [newline]) UID 4 = 0 ↔ UID <+: l := strncmp_line (by decide) (by decide) h.nul
  rw [readStatus]
  split
  · rename_i hnone
    rw [hget] at hnone
    cases hnone
  · rename_i c rest' hsome
    rw [hget] at hsome
    cases hsome
    simp only [htext, hname, huid]

/-- other lines leave their traces in the buffer only -/
theorem readStatus_other {ls : List (List Byte)} (h : ∀ l ∈ ls, Other l) (pid : BitVec 32)
    (struid rest buf programname uidline : List Byte) :
    ∃ buf', readStatus pid struid (joined ls ++ rest) buf programname uidline =
      readStatus pid struid rest buf' programname uidline := by
  induction ls generalizing buf with
  | nil => exact ⟨buf, rfl⟩
  | cons l ls ih =>
    obtain ⟨hl, hls⟩ := List.forall_mem_cons.1 h
    obtain ⟨buf', hbuf'⟩ := ih hls (fill buf ((l ++ [newline]) ++ [0]))
    refine ⟨buf', ?_⟩
    rw [joined_cons, List.append_assoc, List.cons_append, readStatus_line hl.toIsLine]
    simp only [if_neg hl.name, if_neg hl.uid]
    exact hbuf'

/-- what is copied of a line: all that is behind the header and the tab -/
theorem cstring_behind {hd w : List Byte} (h : IsLine (hd ++ tab :: w)) (buf arr : List Byte) :
    cstring (copyLine arr (cstring ((fill buf ((hd ++ tab :: w) ++ [newline] ++ [0])).drop (hd.length + 1)))) = w := by
  have hline : newline ∉ w := fun hmem => h.newline (List.mem_append_right _ (List.mem_cons_of_mem _ hmem))
  have hnul : 0 ∉ w := fun hmem => h.nul (List.mem_append_right _ (List.mem_cons_of_mem _ hmem))
  have hlen : w.length + 1 < 999 := by
    have := h.length
    simp only [List.length_append, List.length_cons] at this
    omega
  have hdrop : ((hd ++ tab :: w) ++ [newline] ++ [0]).drop (hd.length + 1) = w ++ [newline] ++ [0] := by simp
  have hsrc : cstring ((fill buf ((hd ++ tab :: w) ++ [newline] ++ [0])).drop (hd.length + 1)) = w ++ [newline] := by
    rw [fill, List.drop_append_of_le_length (by simp), hdrop, List.append_assoc, List.singleton_append]
    refine cstring_append ?_ _
    rw [List.mem_append, not_or]
    exact ⟨hnul, by decide⟩
  rw [hsrc]
  exact cstring_copyLine hline hnul hlen arr

theorem readStatus_name {name : List Byte} (h : IsLine (nameLine name)) (pid : BitVec 32)
    (struid rest buf programname uidline : List Byte) :
    ∃ buf' programname', cstring programname' = name ∧
      readStatus pid struid (nameLine name ++ newline :: rest) buf programname uidline =
        readStatus pid struid rest buf' programname' uidline := by
  have hname : NAME <+: nameLine name := List.prefix_append _ _
  have huid : ¬ UID <+: nameLine name := by
    rintro ⟨t, ht⟩
    cases ht
  refine ⟨fill buf (nameLine name ++ [newline] ++ [0]), _, cstring_behind h buf programname, ?_⟩
  rw [readStatus_line h]
  simp only [if_pos hname, if_neg huid]
  rfl

theorem readStatus_uid {uid ids : List Byte} (h : IsLine (uidLine uid ids)) (htoken : uid ≠ [] ∧ tab ∉ uid)
    (pid : BitVec 32) (struid rest buf programname uidline : List Byte) :
    readStatus pid struid (uidLine uid ids ++ newline :: rest) buf programname uidline =
      if uid = struid then [(pid.toInt, cstring programname)] else [] := by
  have huid : UID <+: uidLine uid ids := List.prefix_append _ _
  have hname : ¬ NAME <+: uidLine uid ids := by
    rintro ⟨t, ht⟩
    cases ht
  have hcopied : cstring (copyLine uidline (cstring ((fill buf (uidLine uid ids ++ [newline] ++ [0])).drop 5))) =
      uid ++ tab :: ids := cstring_behind h buf uidline
  rw [readStatus_line h]
  simp only [if_pos huid, if_neg hname, hcopied, strtok_append htoken.1 htoken.2]

/-- what is printed for a status file, whatever is in the arrays before -/
theorem readStatus_text (st : Status) (pid : BitVec 32) (struid buf programname uidline : List Byte) :
    readStatus pid struid st.text buf programname uidline =
      if st.uid = struid then [(pid.toInt, st.name)] else [] := by
  have hother := st.other
  rw [List.append_assoc, List.forall_mem_append, List.forall_mem_append] at hother
  obtain ⟨hbefore, hbetween, -⟩ := hother
  obtain ⟨buf₁, h₁⟩ := readStatus_other hbefore pid struid
    (joined (nameLine st.name :: (st.between ++ uidLine st.uid st.ids :: st.after))) buf programname uidline
  obtain ⟨buf₂, programname₂, hname, h₂⟩ := readStatus_name st.name_line pid struid
    (joined (st.between ++ uidLine st.uid st.ids :: st.after)) buf₁ programname uidline
  obtain ⟨buf₃, h₃⟩ := readStatus_other hbetween pid struid (joined (uidLine st.uid st.ids :: st.after)) buf₂
    programname₂ uidline
  have h₄ := readStatus_uid st.uid_line st.uid_token pid struid (joined st.after) buf₃ programname₂ uidline
  rw [Status.text, joined_append, h₁, joined_cons, h₂, joined_append, h₃, joined_cons, h₄, hname]

/-! ## The directory -/

variable {proc : Proc} {e : Entry}

theorem statusPath_inj {name name' : List Byte} (h : statusPath name = statusPath name') : name = name' :=
  List.append_cancel_right (List.append_cancel_left h)

theorem fopen_eq (he : e ∈ proc.entries) : fopen proc (statusPath e.name) = e.status.map Status.text := by
  have hsome : (proc.entries.find? fun e' => statusPath e'.name = statusPath e.name).isSome :=
    List.find?_isSome.2 ⟨e, he, by simp⟩
  obtain ⟨e', he'⟩ := Option.isSome_iff_exists.1 hsome
  have hname : statusPath e'.name = statusPath e.name := by simpa using List.find?_some he'
  obtain rfl : e' = e :=
    List.inj_on_of_nodup_map proc.nodup (List.mem_of_find?_eq_some he') he (statusPath_inj hname)
  rw [fopen, he']
  rfl

theorem IsPid.canonical {name : List Byte} (h : IsPid name) : Canonical name := by
  rw [h.1]
  exact numeral_canonical _

theorem IsPid.strtoll {name : List Byte} (h : IsPid name) : (strtoll name).1 = clamp (value name) := by
  rw [h.canonical.denotes.strtoll.1]

/-- the number that is read off the path is the one of the name -/
theorem scanPid_eq {name : List Byte} (h : IsPid name) (hlt : value name < 2 ^ 63) (pid : BitVec 32) :
    scanPid (statusPath name) pid = BitVec.ofInt 32 (value name) := by
  have hdrop : (statusPath name).drop 6 = name ++ 47 :: [115, 116, 97, 116, 117, 115] := rfl
  have htake : (statusPath name).take 6 = [47, 112, 114, 111, 99, 47] := rfl
  have hread := strtoll_digits h.canonical.ne_nil h.canonical.digits (c := 47) (by decide) [115, 116, 97, 116, 117, 115]
  have hpos := List.length_pos_of_ne_nil h.canonical.ne_nil
  rw [scanPid, hdrop, htake, hread, clamp_eq_self (by omega) (by omega)]
  refine if_neg ?_
  rintro (hne | hlen)
  · exact hne rfl
  · simp only [List.length_append] at hlen
    omega

theorem statusPath_take (he : e ∈ proc.entries) : (statusPath e.name).take (PATH_MAX - 1) = statusPath e.name := by
  refine List.take_of_length_le ?_
  have := proc.name_length e he
  simp only [statusPath, PATH_MAX, List.length_append, List.length_cons, List.length_nil]
  omega

/-- an entry that is taken for a process -/
theorem visit_pid (he : e ∈ proc.entries) (h : IsPid e.name) (hlt : value e.name < 2 ^ 63)
    (hne : BitVec.ofInt 32 (value e.name) ≠ 0) (stack : List Byte → List Byte × BitVec 32) (struid : List Byte) :
    visit proc stack struid e.name =
      match e.status with
      | none => []
      | some st => if st.uid = struid then [((BitVec.ofInt 32 (value e.name)).toInt, st.name)] else [] := by
  have hdot : ¬ (e.name = [46] ∨ e.name = [46, 46]) := by
    have hdigit : ∀ c ∈ e.name, isDigit c = true := h.canonical.digits
    rintro (heq | heq) <;> exact absurd (hdigit 46 (by rw [heq]; simp)) (by decide)
  have hread : (strtoll e.name).1 = value e.name := by rw [h.strtoll, clamp_eq_self (by omega) (by omega)]
  rw [visit, if_neg hdot, hread, if_neg hne, statusPath_take he, wtchprocstatus, fopen_eq he]
  cases e.status with
  | none => rfl
  | some st =>
    simp only [Option.map_some, readStatus_text, scanPid_eq h hlt]

/-- an entry that is not a process -/
theorem visit_other (he : e ∈ proc.entries) (h : ¬ IsPid e.name) (stack : List Byte → List Byte × BitVec 32)
    (struid : List Byte) : visit proc stack struid e.name = [] := by
  have hread := (proc.pids e he).resolve_left h
  rw [visit, hread]
  split_ifs <;> rfl

/-- an entry, if the numbers of the processes are as they should be -/
theorem visit_eq (he : e ∈ proc.entries) (hlt : IsPid e.name → value e.name < 2 ^ 31)
    (stack : List Byte → List Byte × BitVec 32) (uid : BitVec 32) :
    visit proc stack (numeral uid.toNat) e.name = (e.ofUser uid).toList := by
  by_cases h : IsPid e.name
  · have hint : (BitVec.ofInt 32 (value e.name)).toInt = value e.name := by
      rw [BitVec.ofInt_natCast, toInt_ofNat (hlt h)]
    have hne : BitVec.ofInt 32 (value e.name) ≠ 0 := by
      intro hzero
      rw [hzero] at hint
      have := h.2
      simp at hint
      omega
    rw [visit_pid he h ((hlt h).trans (by norm_num)) hne, Entry.ofUser, hint]
    cases e.status with
    | none => rfl
    | some st =>
      simp only [Option.bind_some, and_iff_right h]
      split_ifs <;> rfl
  · rw [visit_other he h, Entry.ofUser]
    cases e.status <;> simp [h]

/-- **The user's processes.** For every `/proc` whose processes have numbers that an `int` can hold and for every user
ID other than the one with all bits set: the numbers and names that are printed are those of the processes of the user,
in the order of the directory. -/
theorem lists_users (proc : Proc) (stack : List Byte → List Byte × BitVec 32) {uid : BitVec 32} (huid : uid ≠ noUser)
    (hpid : ∀ e ∈ proc.entries, IsPid e.name → value e.name < 2 ^ 31) :
    useract proc stack (some uid) = some (users proc uid) := by
  have htake : (numeral uid.toNat).take (STRUID_MAX_SIZE - 1) = numeral uid.toNat := by
    have hlen : (numeral uid.toNat).length ≤ 10 := numeral_length (by decide) (uid.isLt.trans (by norm_num))
    refine List.take_of_length_le (hlen.trans ?_)
    decide
  rw [useract, Option.getD_some]
  simp only [if_neg huid, htake, users, Option.some_inj]
  rw [List.filterMap_eq_flatMap_toList]
  refine List.flatMap_congr fun e he => ?_
  exact visit_eq he (hpid e he) stack uid

/-- a status file of a process `x` of the user 0 -/
def sample : Status where
  before := []
  name := [120]
  between := [[]]
  uid := [48]
  ids := [48]
  after := []
  name_line := ⟨by decide, by decide, by decide⟩
  name_token := by decide
  uid_line := ⟨by decide, by decide, by decide⟩
  uid_token := by decide
  other := by
    intro l hl
    obtain rfl : l = [] := by simpa using hl
    exact ⟨⟨by decide, by decide, by decide⟩, by decide, by decide⟩

/-- a status file of a process `x` of the user 5 -/
def sampleOther : Status :=
  { sample with
    uid := [53]
    uid_line := ⟨by decide, by decide, by decide⟩
    uid_token := by decide }

/-- `acpi`, which is no process; `7`; `8`, of another user; and `9`, whose status file cannot be opened -/
def several : Proc where
  entries := [⟨[97, 99, 112, 105], none⟩, ⟨[55], some sample⟩, ⟨[56], some sampleOther⟩, ⟨[57], none⟩]
  nodup := by decide
  name_length := by decide
  name_bytes := by decide
  pids := by
    intro e he
    simp only [List.mem_cons, List.not_mem_nil, or_false] at he
    rcases he with rfl | rfl | rfl | rfl
    · exact .inr (by decide)
    all_goals exact .inl ⟨by simp [value, numeral, digitChar], by decide⟩

theorem lists_users_several :
    useract several (fun _ => ([], 0)) (some 0#32) = some [(7, [120])] := by
  rw [lists_users _ _ (by decide) (by decide)]
  simp [users, several, Entry.ofUser, sample, sampleOther, IsPid, value, numeral, digitChar]

/-- a directory with one process -/
def single (name : List Byte) (hlen : name.length ≤ 255) (hbytes : 0 ∉ name ∧ 47 ∉ name) (h : IsPid name) : Proc where
  entries := [⟨name, some sample⟩]
  nodup := List.nodup_singleton _
  name_length := by simpa using hlen
  name_bytes := by simpa using hbytes
  pids := by simpa using .inl h

/-- `2147483648`: the number that is printed is negative; and the user ID that stands for no user -/
theorem not_lists_users :
    (¬ ∀ (proc : Proc) (stack : List Byte → List Byte × BitVec 32) (uid : BitVec 32), uid ≠ noUser →
        useract proc stack (some uid) = some (users proc uid)) ∧
      ¬ ∀ (proc : Proc) (stack : List Byte → List Byte × BitVec 32),
        useract proc stack (some noUser) = some (users proc noUser) := by
  have hname : IsPid [50, 49, 52, 55, 52, 56, 51, 54, 52, 56] := ⟨by simp [value, numeral, digitChar], by decide⟩
  constructor
  · intro h
    have hright := h (single _ (by decide) (by decide) hname) (fun _ => ([], 0)) 0#32 (by decide)
    have hmem : ⟨_, some sample⟩ ∈ (single _ (by decide) (by decide) hname).entries := List.mem_singleton_self _
    have hvisit := visit_pid hmem hname (by decide) (by decide) (fun _ => ([], 0)) [48]
    have hstruid : (numeral (0#32).toNat).take (STRUID_MAX_SIZE - 1) = [48] := by simp [numeral, STRUID_MAX_SIZE]
    rw [useract, Option.getD_some, if_neg (by decide), hstruid] at hright
    simp only [single, List.flatMap_cons, List.flatMap_nil, List.append_nil] at hright hvisit
    rw [hvisit] at hright
    have hnumber := congrArg (fun l => l.bind fun l => l.head?.map Prod.fst) hright
    simp [users, Entry.ofUser, sample, numeral, value] at hnumber
  · intro h
    have hright := h (single _ (by decide) (by decide) hname) fun _ => ([], 0)
    rw [useract, Option.getD_some, if_pos rfl] at hright
    cases hright

end OsPractice.Useract
