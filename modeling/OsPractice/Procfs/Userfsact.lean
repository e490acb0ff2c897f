/-
The processes that have a file open (`procfs/userfsact.c`). The program goes through the entries of `/proc`, takes those
that `isdigitstr` accepts for processes, and reads the links `/proc/PID/fd/N` of each for `N` up to `FOPEN_MAX`. The
number is appended to a path and cut off again; after a match it is left there.

A path is the text in its buffer; the buffer has room for the name of an entry (at most 255 bytes). `/proc` does not
change while it is read, and `opendir`, `readdir` and `snprintf` do not fail. A descriptor may have any number.

Results:
- `scanFds_spec`: the loop over the descriptors of an entry, and the path it has at each;
- `scan_spec`: the loop over the entries;
- `userfsact_users`: when the processes that are printed are the right ones.
-/
import OsPractice.Procfs.Dtoa
import OsPractice.Procfs.Isdigitstr

namespace OsPractice.Userfsact

open Bytes Decimal Dtoa Isdigitstr

/-! ## `/proc` -/

def PATH_MAX : ℕ := 4096

def FOPEN_MAX : ℕ := 16

/-- an entry of `/proc`, and the links under its `fd` by their numbers -/
structure Entry where
  name : List Byte
  fds : List (ℕ × List Byte)
  deriving DecidableEq, Repr

/-- the processes are the entries whose names are digit strings -/
structure Proc where
  /-- in the order of the directory -/
  entries : List Entry
  nodup : (entries.map Entry.name).Nodup
  name_length : ∀ e ∈ entries, e.name.length ≤ 255
  name_bytes : ∀ e ∈ entries, 0 ∉ e.name ∧ 47 ∉ e.name
  fds_nodup : ∀ e ∈ entries, (e.fds.map Prod.fst).Nodup
  target_length : ∀ e ∈ entries, ∀ p ∈ e.fds, p.2.length < PATH_MAX
  target_bytes : ∀ e ∈ entries, ∀ p ∈ e.fds, 0 ∉ p.2

/-- `/proc/NAME/fd/` -/
def fdDir (name : List Byte) : List Byte := [47, 112, 114, 111, 99, 47] ++ name ++ [47, 102, 100, 47]

/-- the target of the link `N` -/
def Entry.link (e : Entry) (N : ℕ) : Option (List Byte) := (e.fds.find? fun p => p.1 = N).map Prod.snd

/-- `readlink`: the target of the link that has the path -/
def readlink (proc : Proc) (path : List Byte) : Option (List Byte) :=
  proc.entries.findSome? fun e =>
    let number := path.drop (fdDir e.name).length
    if fdDir e.name <+: path ∧ number = numeral (value number) then e.link (value number) else none

/-! ## The program -/

/-- a call of `readlink`, with the entry and the number it is for -/
structure Probe where
  d_name : List Byte
  fdnum : ℕ
  path : List Byte
  deriving DecidableEq, Repr

structure State where
  /-- the text in `path` -/
  path : List Byte
  /-- the static buffer of `dtoa` -/
  buf : Buf
  probes : List Probe
  /-- the names after `PID: ` -/
  printed : List (List Byte)

section

variable (proc : Proc) (arg : List Byte)

/-- the loop over the descriptors, with `left` of them to go -/
def scanFds (d_name : List Byte) : ℕ → ℕ → State → Option State
  | 0, _, st => some st
  | left + 1, fdnum, st => (dtoa st.buf (BitVec.ofNat 64 fdnum)).bind fun buf =>
    let s := text buf
    let path := st.path ++ s
    let probes := st.probes ++ [⟨d_name, fdnum, path⟩]
    -- `symbuf` has room for `PATH_MAX - 1` bytes and the NUL
    if (readlink proc path).map (fun target => cstring (target.take (PATH_MAX - 1) ++ [0])) = some arg then
      some ⟨path, buf, probes, st.printed ++ [d_name]⟩
    else scanFds d_name left (fdnum + 1) ⟨path.take (path.length - s.length), buf, probes, st.printed⟩

/-- an entry of the directory -/
def visit (e : Entry) (st : State) : Option State :=
  if isdigitstr e.name = -1 then some st
  else scanFds proc arg e.name FOPEN_MAX 0 { st with path := (fdDir e.name).take (PATH_MAX - 1) }

def scan : List Entry → State → Option State
  | [], st => some st
  | e :: es, st => (visit proc arg e st).bind (scan es)

def userfsact (buf : Buf) : Option State := scan proc arg proc.entries ⟨[], buf, [], []⟩

end

/-! ## What it is for -/

/-- a descriptor of the entry has the file, with a number from `lo` up to `hi` -/
abbrev HasFile (arg : List Byte) (lo hi : ℕ) (e : Entry) : Prop := ∃ p ∈ e.fds, p.2 = arg ∧ lo ≤ p.1 ∧ p.1 < hi

/-- a descriptor of the entry has the file -/
abbrev Uses (arg : List Byte) (e : Entry) : Prop := ∃ p ∈ e.fds, p.2 = arg

/-- the path is `/proc/PID/fd/N` -/
def Probe.Exact (p : Probe) : Prop := p.path = fdDir p.d_name ++ numeral p.fdnum

/-- the names of the processes that have the file open, in the order of the directory -/
def users (proc : Proc) (arg : List Byte) : List (List Byte) :=
  (proc.entries.filter fun e => DigitString e.name ∧ Uses arg e).map Entry.name

/-! ## Links -/

variable {proc : Proc} {arg : List Byte} {e : Entry}

/-- a search that only one element can answer -/
theorem findSome?_of_unique {A B : Type} {f : A → Option B} {l : List A} {a : A} (ha : a ∈ l)
    (h : ∀ b ∈ l, b ≠ a → f b = none) : l.findSome? f = f a := by
  induction l with
  | nil => cases ha
  | cons b l ih =>
    rw [List.findSome?_cons]
    by_cases hb : b = a
    · subst hb
      cases hf : f b with
      | some _ => rfl
      | none =>
        refine List.findSome?_eq_none_iff.2 fun c hc => ?_
        by_cases hcb : c = b
        · rw [hcb, hf]
        · exact h c (List.mem_cons_of_mem _ hc) hcb
    · rw [h b List.mem_cons_self hb]
      exact ih ((List.mem_cons.1 ha).resolve_left (Ne.symm hb)) fun c hc => h c (List.mem_cons_of_mem _ hc)

theorem fdDir_inj {n n' s : List Byte} (hn : 47 ∉ n) (hn' : 47 ∉ n') (h : fdDir n' <+: fdDir n ++ s) : n' = n := by
  obtain ⟨t, ht⟩ := h
  simp only [fdDir, List.append_assoc, List.append_cancel_left_eq] at ht
  have hname := congrArg (List.takeWhile (· ≠ 47)) ht
  rwa [List.cons_append, takeWhile_ne hn', List.cons_append, takeWhile_ne hn] at hname

/-- the link of an entry is found by its path -/
theorem readlink_eq (he : e ∈ proc.entries) (N : ℕ) : readlink proc (fdDir e.name ++ numeral N) = e.link N := by
  rw [readlink, findSome?_of_unique he]
  · simp [value_numeral]
  · intro e' he' hne
    refine if_neg fun h => hne ?_
    exact List.inj_on_of_nodup_map proc.nodup he' he
      (fdDir_inj (proc.name_bytes e he).2 (proc.name_bytes e' he').2 h.1)

theorem link_iff (he : e ∈ proc.entries) {N : ℕ} {target : List Byte} :
    e.link N = some target ↔ (N, target) ∈ e.fds := by
  rw [Entry.link, Option.map_eq_some_iff]
  constructor
  · rintro ⟨p, hp, rfl⟩
    obtain rfl : p.1 = N := by simpa using List.find?_some hp
    exact List.mem_of_find?_eq_some hp
  · intro hmem
    have hsome : (e.fds.find? fun p => p.1 = N).isSome := List.find?_isSome.2 ⟨_, hmem, by simp⟩
    obtain ⟨p, hp⟩ := Option.isSome_iff_exists.1 hsome
    have hN : p.1 = N := by simpa using List.find?_some hp
    refine ⟨p, hp, ?_⟩
    rw [List.inj_on_of_nodup_map (proc.fds_nodup e he) (List.mem_of_find?_eq_some hp) hmem hN]

/-- what the program compares with its argument -/
theorem probe_eq (he : e ∈ proc.entries) (N : ℕ) :
    (readlink proc (fdDir e.name ++ numeral N)).map (fun target => cstring (target.take (PATH_MAX - 1) ++ [0])) =
        some arg ↔ (N, arg) ∈ e.fds := by
  rw [readlink_eq he, Option.map_eq_some_iff]
  have htarget : ∀ target, (N, target) ∈ e.fds → cstring (target.take (PATH_MAX - 1) ++ [0]) = target := by
    intro target hmem
    rw [List.take_of_length_le (Nat.le_sub_one_of_lt (proc.target_length e he _ hmem))]
    exact cstring_append (proc.target_bytes e he _ hmem) []
  constructor
  · rintro ⟨target, hlink, heq⟩
    have hmem := (link_iff he).1 hlink
    rwa [← heq, htarget target hmem]
  · exact fun hmem => ⟨arg, (link_iff he).2 hmem, htarget arg hmem⟩

/-! ## The loop over the descriptors -/

/-- the text of a descriptor's number -/
theorem dtoa_fdnum (buf : Buf) {N : ℕ} (h : N < 2 ^ 63) :
    ∃ buf', dtoa buf (BitVec.ofNat 64 N) = some buf' ∧ text buf' = numeral N := by
  have hnat : (BitVec.ofNat 64 N).toNat = N := by rw [BitVec.toNat_ofNat, Nat.mod_eq_of_lt (by omega)]
  have hint : (BitVec.ofNat 64 N).toInt = N := by rw [BitVec.toInt_eq_toNat_of_lt (by omega), hnat]
  have hmin : BitVec.ofNat 64 N ≠ LLONG_MIN := by
    intro heq
    have hneg : LLONG_MIN.toInt < 0 := by decide
    rw [← heq, hint] at hneg
    omega
  obtain ⟨buf', hrun, -⟩ := dtoa_eq buf (BitVec.ofNat 64 N)
  refine ⟨buf', hrun, ?_⟩
  rw [dtoa_numeral hmin hrun, hint, if_neg (by omega), List.nil_append, Int.natAbs_natCast]

theorem hasFile_succ {lo hi : ℕ} (h : lo < hi) :
    HasFile arg lo hi e ↔ (lo, arg) ∈ e.fds ∨ HasFile arg (lo + 1) hi e := by
  constructor
  · rintro ⟨⟨N, target⟩, hmem, rfl, hlo, hhi⟩
    rcases Nat.eq_or_lt_of_le hlo with rfl | hlt
    · exact .inl hmem
    · exact .inr ⟨_, hmem, rfl, hlt, hhi⟩
  · rintro (hmem | ⟨p, hmem, htarget, hlo, hhi⟩)
    · exact ⟨_, hmem, rfl, le_rfl, h⟩
    · exact ⟨p, hmem, htarget, (Nat.lt_of_succ_le hlo).le, hhi⟩

/-- the path at each descriptor, and whether the entry is printed -/
theorem scanFds_spec (arg : List Byte) (he : e ∈ proc.entries) {left fdnum : ℕ} (st : State)
    (hpath : st.path = fdDir e.name) (hmax : fdnum + left ≤ FOPEN_MAX) :
    ∃ st', scanFds proc arg e.name left fdnum st = some st' ∧
      st'.printed = st.printed ++ (if HasFile arg fdnum (fdnum + left) e then [e.name] else []) ∧
      ((∀ p ∈ st.probes, p.Exact) → ∀ p ∈ st'.probes, p.Exact) := by
  induction left generalizing fdnum st with
  | zero =>
    refine ⟨st, rfl, ?_, id⟩
    have hnone : ¬ HasFile arg fdnum (fdnum + 0) e := by
      rintro ⟨p, -, -, hlo, hhi⟩
      omega
    rw [if_neg hnone, List.append_nil]
  | succ left ih =>
    obtain ⟨buf, hbuf, htext⟩ := dtoa_fdnum st.buf (N := fdnum) (by simp only [FOPEN_MAX] at hmax; omega)
    have hexact : (∀ p ∈ st.probes, p.Exact) →
        ∀ p ∈ st.probes ++ [⟨e.name, fdnum, fdDir e.name ++ numeral fdnum⟩], p.Exact := by
      intro hp p hmem
      rcases List.mem_append.1 hmem with hmem | hmem
      · exact hp p hmem
      · rw [List.mem_singleton.1 hmem]
        rfl
    have hsucc : HasFile arg fdnum (fdnum + (left + 1)) e ↔ _ := hasFile_succ (by omega)
    simp only [scanFds, hbuf, Option.bind_some, htext, hpath, probe_eq he]
    by_cases hmem : (fdnum, arg) ∈ e.fds
    · rw [if_pos hmem, if_pos (hsucc.2 (.inl hmem))]
      exact ⟨_, rfl, rfl, hexact⟩
    · -- the number is cut off again
      have hcut : (fdDir e.name ++ numeral fdnum).take
          ((fdDir e.name ++ numeral fdnum).length - (numeral fdnum).length) = fdDir e.name := by
        rw [List.length_append, Nat.add_sub_cancel, List.take_left]
      rw [if_neg hmem, hcut]
      have hmax' : fdnum + 1 + left ≤ FOPEN_MAX := by omega
      obtain ⟨st', hrun, hprinted, hprobes⟩ :=
        ih ⟨fdDir e.name, buf, st.probes ++ [⟨e.name, fdnum, fdDir e.name ++ numeral fdnum⟩], st.printed⟩ rfl hmax'
      refine ⟨st', hrun, ?_, fun hp => hprobes (hexact hp)⟩
      have hiff : HasFile arg (fdnum + 1) (fdnum + 1 + left) e ↔ HasFile arg fdnum (fdnum + (left + 1)) e := by
        rw [hsucc, or_iff_right hmem, Nat.add_right_comm, Nat.add_assoc]
      rw [hprinted]
      simp only [hiff]

/-! ## The loop over the entries -/

/-- the program takes the entry for a process and finds the file among its descriptors -/
abbrev Found (arg : List Byte) (e : Entry) : Prop := isdigitstr e.name = 0 ∧ HasFile arg 0 FOPEN_MAX e

theorem visit_spec (arg : List Byte) (he : e ∈ proc.entries) (st : State) :
    ∃ st', visit proc arg e st = some st' ∧ st'.printed = st.printed ++ (if Found arg e then [e.name] else []) ∧
      ((∀ p ∈ st.probes, p.Exact) → ∀ p ∈ st'.probes, p.Exact) := by
  unfold visit
  by_cases hacc : isdigitstr e.name = 0
  · have hpath : (fdDir e.name).take (PATH_MAX - 1) = fdDir e.name := by
      refine List.take_of_length_le ?_
      have := proc.name_length e he
      simp only [fdDir, List.length_append, List.length_cons, List.length_nil, PATH_MAX]
      omega
    have hloop := scanFds_spec arg he { st with path := fdDir e.name } rfl (Nat.zero_add FOPEN_MAX).le
    rw [Nat.zero_add] at hloop
    rw [if_neg (by rw [isdigitstr_eq_neg_one, not_not]; exact hacc), hpath]
    simp only [Found, hacc, true_and]
    exact hloop
  · rw [if_pos ((isdigitstr_eq_neg_one _).2 hacc)]
    exact ⟨st, rfl, by rw [if_neg fun h => hacc h.1, List.append_nil], id⟩

theorem scan_spec (arg : List Byte) {es : List Entry} (hes : ∀ e ∈ es, e ∈ proc.entries) (st : State) :
    ∃ st', scan proc arg es st = some st' ∧
      st'.printed = st.printed ++ (es.filter fun e => Found arg e).map Entry.name ∧
      ((∀ p ∈ st.probes, p.Exact) → ∀ p ∈ st'.probes, p.Exact) := by
  induction es generalizing st with
  | nil => exact ⟨st, rfl, (List.append_nil _).symm, id⟩
  | cons e es ih =>
    obtain ⟨st₁, hvisit, hprinted₁, hprobes₁⟩ := visit_spec arg (hes e List.mem_cons_self) st
    obtain ⟨st₂, hscan, hprinted₂, hprobes₂⟩ := ih (fun e' he' => hes e' (List.mem_cons_of_mem _ he')) st₁
    refine ⟨st₂, by rw [scan, hvisit, Option.bind_some, hscan], ?_, fun hp => hprobes₂ (hprobes₁ hp)⟩
    rw [hprinted₂, hprinted₁, List.append_assoc, List.filter_cons]
    split_ifs with hfound h₂ h₂
    · rfl
    · exact absurd (decide_eq_true hfound) h₂
    · exact absurd (of_decide_eq_true h₂) hfound
    · rfl

/-- two selections from a list whose elements have different names -/
theorem map_filter_eq_iff {A B : Type} {f : A → B} {l : List A} (h : (l.map f).Nodup) (p q : A → Bool) :
    (l.filter p).map f = (l.filter q).map f ↔ ∀ a ∈ l, p a = q a := by
  constructor
  · intro heq a ha
    have hmem : ∀ r : A → Bool, f a ∈ (l.filter r).map f ↔ r a = true := by
      intro r
      constructor
      · intro hfa
        obtain ⟨b, hb, hfb⟩ := List.mem_map.1 hfa
        obtain ⟨hbl, hrb⟩ := List.mem_filter.1 hb
        rwa [List.inj_on_of_nodup_map h hbl ha hfb] at hrb
      · exact fun hr => List.mem_map_of_mem (List.mem_filter.2 ⟨ha, hr⟩)
    rw [Bool.eq_iff_iff, ← hmem p, ← hmem q, heq]
  · intro heq
    rw [List.filter_congr heq]

/-- no process is printed twice -/
theorem users_nodup (proc : Proc) (arg : List Byte) : (users proc arg).Nodup :=
  proc.nodup.sublist (List.Sublist.map _ List.filter_sublist)

/-- **The users of a file.** For every state of `/proc` and every argument: each probe is of the path `/proc/PID/fd/N`
for the entry and the number at hand; and the names printed are those of the processes that have the file open, in the
order of the directory, if and only if every such process has it under a number below `FOPEN_MAX`, and no entry that has
it under such a number has digits behind blanks or a sign for its name. -/
theorem userfsact_users (proc : Proc) (arg : List Byte) (buf : Buf) :
    ∃ st, userfsact proc arg buf = some st ∧
      (((∀ p ∈ st.probes, p.Exact) ∧ st.printed = users proc arg) ↔
        ∀ e ∈ proc.entries, (DigitString e.name → Uses arg e → HasFile arg 0 FOPEN_MAX e) ∧
          (Padded e.name → ¬ HasFile arg 0 FOPEN_MAX e)) := by
  obtain ⟨st, hrun, hprinted, hprobes⟩ := scan_spec arg (fun e (he : e ∈ proc.entries) => he) ⟨[], buf, [], []⟩
  refine ⟨st, hrun, ?_⟩
  have hexact : ∀ p ∈ st.probes, p.Exact := hprobes (by simp)
  rw [and_iff_right hexact, hprinted, List.nil_append, users, map_filter_eq_iff proc.nodup]
  refine forall₂_congr fun e he => ?_
  have hacc := isdigitstr_eq_zero (proc.name_bytes e he).1
  have huses : HasFile arg 0 FOPEN_MAX e → Uses arg e := fun ⟨p, hp, htarget, _⟩ => ⟨p, hp, htarget⟩
  have hpad : Padded e.name → ¬ DigitString e.name := Padded.not_digitString
  rw [decide_eq_decide, Found, hacc]
  constructor
  · intro h
    exact ⟨fun hd hu => (h.2 ⟨hd, hu⟩).2, fun hp hf => hpad hp (h.1 ⟨.inr hp, hf⟩).1⟩
  · rintro ⟨hlow, hnone⟩
    constructor
    · rintro ⟨hd | hp, hf⟩
      · exact ⟨hd, huses hf⟩
      · exact absurd hf (hnone hp)
    · rintro ⟨hd, hu⟩
      exact ⟨.inl hd, hlow hd hu⟩

/-- the process `7` has the file `x` open under the number 16 only -/
def sixteen : Proc where
  entries := [⟨[55], [(16, [120])]⟩]
  nodup := by decide
  name_length := by decide
  name_bytes := by decide
  fds_nodup := by decide
  target_length := by decide
  target_bytes := by decide

theorem not_userfsact_users :
    ¬ ∀ (proc : Proc) (arg : List Byte) (buf : Buf), ∃ st, userfsact proc arg buf = some st ∧
      (∀ p ∈ st.probes, p.Exact) ∧ st.printed = users proc arg := by
  intro h
  obtain ⟨st, hrun, -, hprinted⟩ := h sixteen [120] (Vector.replicate 100 0)
  obtain ⟨st', hrun', hprinted', -⟩ := scan_spec [120] (fun e (he : e ∈ sixteen.entries) => he)
    ⟨[], Vector.replicate 100 0, [], []⟩
  obtain rfl : st = st' := Option.some.inj (hrun.symm.trans hrun')
  rw [hprinted'] at hprinted
  revert hprinted
  decide

end OsPractice.Userfsact
