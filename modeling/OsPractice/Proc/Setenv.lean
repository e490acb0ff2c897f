/-
`setenv` (`proc/envmanip.c`). It writes `name=value` into a static buffer, `ebuf`, and hands the buffer to `putenv`,
which keeps the pointer it is given.

So at most one variable is held by `ebuf` at a time: a call that sets another one takes the text of the first from under
the pointer that `environ` has.

`environ` is a list of pointers, to `ebuf` or to a string that nothing changes. `getenv` finds the first entry of a
name, but none of the empty name; `putenv` replaces it, or adds an entry. `putenv` never fails.

Results:
- `setenv_iff`: after each call of a sequence the environment is the map it should be, exactly when each call has a name
  that is not empty, and leaves the variable in `ebuf` a value if it sets one.
-/
import OsPractice.Core.CString

namespace OsPractice.Setenv

open Bytes CString

/-! ## The environment -/

/-- `'='` -/
def equals : Byte := 61

/-- what an entry of `environ` points to: `ebuf`, or a string -/
inductive Ptr where
  | ebuf
  | str (s : List Byte)
  deriving DecidableEq, Repr

structure Process where
  environ : List Ptr
  ebuf : List Byte
  deriving DecidableEq, Repr

def Process.text (st : Process) : Ptr → List Byte
  | .ebuf => cstring st.ebuf
  | .str s => s

/-- `s` is an entry of this name -/
def HasName (name s : List Byte) : Prop := name ++ [equals] <+: s

instance (name s : List Byte) : Decidable (HasName name s) := inferInstanceAs (Decidable (_ <+: _))

/-- the name of an entry, and its value -/
def nameOf (s : List Byte) : List Byte := s.takeWhile (· ≠ equals)

def valueOf (s : List Byte) : List Byte := s.drop ((nameOf s).length + 1)

/-- `getenv`: the empty name has no value, also where there is an entry `=value` -/
def getenv (st : Process) (name : List Byte) : Option (List Byte) :=
  if name = [] then none
  else (st.environ.find? fun p => HasName name (st.text p)).map fun p => valueOf (st.text p)

/-- the list with `p` in the place of the first entry for which `q` holds, or behind it -/
def putAt (q : Ptr → Bool) (p : Ptr) : List Ptr → List Ptr
  | [] => [p]
  | r :: rs => if q r then p :: rs else r :: putAt q p rs

def putenv (st : Process) (p : Ptr) : Process :=
  { st with environ := putAt (fun r => HasName (nameOf (st.text p)) (st.text r)) p st.environ }

/-! ## The program -/

/-- a call `setenv(name, value, overwrite)` that the buffer has room for -/
structure Call where
  name : List Byte
  value : List Byte
  overwrite : ℤ
  nameOk : 0 ∉ name ∧ equals ∉ name
  valueOk : 0 ∉ value
  short : name.length + 1 + value.length < 1023

/-- `ebuf` after `name=value` has been written into it -/
def writeEbuf (ebuf name value : List Byte) : List Byte :=
  let (ebuf, destp) := stpcpy ebuf 0 name
  let ebuf := ebuf.set destp equals
  let (ebuf, destp) := stpcpy ebuf (destp + 1) value
  ebuf.set destp 0

/-- the call sets its variable -/
def Sets (st : Process) (c : Call) : Prop := getenv st c.name = none ∨ c.overwrite ≠ 0

instance (st : Process) (c : Call) : Decidable (Sets st c) := inferInstanceAs (Decidable (_ ∨ _))

def setenv (st : Process) (c : Call) : Process :=
  if Sets st c then putenv { st with ebuf := writeEbuf st.ebuf c.name c.value } .ebuf else st

/-- the environment of these strings; `ebuf` is static -/
def start (strings : List (List Byte)) : Process := ⟨strings.map .str, List.replicate 1024 0⟩

def run (st : Process) (calls : List Call) : Process := calls.foldl setenv st

/-- what a sequence of calls should do to the map from names to values -/
def apply (env : List Byte → Option (List Byte)) (c : Call) : List Byte → Option (List Byte) :=
  if env c.name = none ∨ c.overwrite ≠ 0 then Function.update env c.name (some c.value) else env

def applyAll (env : List Byte → Option (List Byte)) (calls : List Call) : List Byte → Option (List Byte) :=
  calls.foldl apply env

/-! ## The buffer -/

variable {st : Process} {c : Call} {name s : List Byte}

theorem writeEbuf_eq (ebuf : List Byte) (c : Call) : writeEbuf ebuf c.name c.value =
    (c.name ++ equals :: c.value) ++ 0 :: ebuf.drop (c.name.length + c.value.length + 2) := by
  have hname : (c.name ++ [equals]).length = c.name.length + 1 := by simp
  have hset : (c.name ++ 0 :: ebuf.drop (c.name.length + 1)).set c.name.length equals =
      (c.name ++ [equals]) ++ ebuf.drop (c.name.length + 1) := by
    rw [List.set_append_right _ _ le_rfl, Nat.sub_self]
    simp
  have hle : c.name.length + 1 ≤ ((c.name ++ [equals]) ++ ebuf.drop (c.name.length + 1)).length := by simp
  have htake : ((c.name ++ [equals]) ++ ebuf.drop (c.name.length + 1)).take (c.name.length + 1) =
      c.name ++ [equals] := List.take_left' hname
  have hdrop : ((c.name ++ [equals]) ++ ebuf.drop (c.name.length + 1)).drop (c.name.length + 1 + c.value.length + 1) =
      ebuf.drop (c.name.length + c.value.length + 2) := by
    rw [Nat.add_assoc _ c.value.length, ← hname, List.drop_length_add_append, hname, List.drop_drop]
    congr 1
    omega
  have hend : c.name.length + 1 + c.value.length = (c.name ++ [equals] ++ c.value).length := by simp; omega
  simp only [writeEbuf, stpcpy_eq (Nat.zero_le _), List.take_zero, List.nil_append, Nat.zero_add, hset]
  rw [stpcpy_eq hle, htake, hdrop]
  simp only [hend]
  rw [List.set_append_right _ _ le_rfl, Nat.sub_self]
  simp

/-- the text fits into `ebuf` -/
theorem writeEbuf_length {ebuf : List Byte} (h : ebuf.length = 1024) (c : Call) :
    (writeEbuf ebuf c.name c.value).length = 1024 := by
  have hshort := c.short
  rw [writeEbuf_eq]
  simp only [List.length_append, List.length_cons, List.length_drop]
  omega

theorem cstring_writeEbuf (ebuf : List Byte) (c : Call) :
    cstring (writeEbuf ebuf c.name c.value) = c.name ++ equals :: c.value := by
  have h0 : 0 ∉ c.name ++ equals :: c.value := by
    refine List.mem_append.not.2 (not_or.2 ⟨c.nameOk.1, ?_⟩)
    exact List.not_mem_cons_of_ne_of_not_mem (by decide) c.valueOk
  rw [writeEbuf_eq]
  exact cstring_append h0 _

/-! ## Names -/

theorem nameOf_append (h : equals ∉ name) (v : List Byte) : nameOf (name ++ equals :: v) = name :=
  takeWhile_ne h v

theorem valueOf_append (h : equals ∉ name) (v : List Byte) : valueOf (name ++ equals :: v) = v := by
  rw [valueOf, nameOf_append h, List.drop_length_add_append]
  simp

theorem HasName.nameOf (h : HasName name s) (hn : equals ∉ name) : nameOf s = name := by
  obtain ⟨v, rfl⟩ := h
  rw [List.append_assoc]
  exact nameOf_append hn v

theorem nameOf_noEquals (s : List Byte) : equals ∉ nameOf s := fun h => by
  simpa using List.mem_takeWhile_imp h

/-- the value that a variable has in an entry of its own, not in `ebuf` -/
def ownValue (st : Process) (name : List Byte) : Option (List Byte) :=
  if name = [] then none
  else (st.environ.find? fun p => p ≠ .ebuf ∧ HasName name (st.text p)).map fun p => valueOf (st.text p)

/-- a variable that is not the one in `ebuf` -/
theorem getenv_eq_own (hn : equals ∉ name) (h : nameOf (st.text .ebuf) ≠ name) : getenv st name = ownValue st name := by
  have hp : (fun p => decide (HasName name (st.text p))) =
      fun p => decide (p ≠ Ptr.ebuf ∧ HasName name (st.text p)) := by
    funext p
    cases p with
    | ebuf =>
      have : ¬ HasName name (st.text .ebuf) := fun hname => h (hname.nameOf hn)
      simp [this]
    | str s => simp
  rw [getenv, ownValue, hp]

/-! ## One call -/

theorem find?_putAt (q : Ptr → Bool) {p : Ptr} (hp : q p = true) (rs : List Ptr) :
    (putAt q p rs).find? q = some p := by
  induction rs with
  | nil => simp [putAt, hp]
  | cons r rs ih =>
    rw [putAt]
    by_cases hr : q r = true
    · rw [if_pos hr, List.find?_cons_of_pos hp]
    · rw [if_neg hr, List.find?_cons_of_neg (by simpa using hr), ih]

theorem find?_putAt_other (q q' : Ptr → Bool) {p : Ptr} (hp : q' p = false) (hq : ∀ r, q r = true → q' r = false)
    (rs : List Ptr) : (putAt q p rs).find? q' = rs.find? q' := by
  induction rs with
  | nil => simp [putAt, hp]
  | cons r rs ih =>
    rw [putAt]
    by_cases hr : q r = true
    · rw [if_pos hr, List.find?_cons_of_neg (by simp [hp]), List.find?_cons_of_neg (by simp [hq r hr])]
    · rw [if_neg hr, List.find?_cons, List.find?_cons, ih]

/-- a call that sets its variable -/
theorem setenv_sets (h : Sets st c) :
    setenv st c = putenv { st with ebuf := writeEbuf st.ebuf c.name c.value } .ebuf := if_pos h

theorem text_set (st : Process) (c : Call) :
    Process.text { st with ebuf := writeEbuf st.ebuf c.name c.value } .ebuf = c.name ++ equals :: c.value :=
  cstring_writeEbuf st.ebuf c

/-- the variable that has been set -/
theorem getenv_set (h : Sets st c) (hnil : c.name ≠ []) : getenv (setenv st c) c.name = some c.value := by
  have hname : HasName c.name (c.name ++ equals :: c.value) := ⟨c.value, by simp⟩
  have hfind := find?_putAt
    (fun r => HasName c.name (Process.text { st with ebuf := writeEbuf st.ebuf c.name c.value } r))
    (p := .ebuf) (by simpa [text_set] using hname) st.environ
  rw [setenv_sets h, putenv, text_set, nameOf_append c.nameOk.2, getenv, if_neg hnil]
  exact (congrArg _ hfind).trans (by simp [Process.text, cstring_writeEbuf, valueOf_append c.nameOk.2])

/-- the strings of the environ do not depend on `ebuf` -/
theorem ownValue_ebuf (st : Process) (ebuf name : List Byte) :
    ownValue { st with ebuf := ebuf } name = ownValue st name := by
  have hp : (fun p => decide (p ≠ Ptr.ebuf ∧ HasName name (Process.text { st with ebuf := ebuf } p))) =
      fun p => decide (p ≠ Ptr.ebuf ∧ HasName name (st.text p)) := by
    funext p
    cases p <;> simp [Process.text]
  rw [ownValue, ownValue, hp]
  refine if_congr Iff.rfl rfl (Option.map_congr fun p hmem => ?_)
  have hsome := List.find?_some hmem
  cases p with
  | ebuf => simp at hsome
  | str s => rfl

/-- an entry that goes to `putenv` is not an entry of another variable's own -/
theorem ownValue_putenv (hn : equals ∉ name) (hne : name ≠ nameOf (st.text .ebuf)) :
    ownValue (putenv st .ebuf) name = ownValue st name := by
  refine if_congr Iff.rfl rfl (congrArg _ (find?_putAt_other (fun r => HasName (nameOf (st.text .ebuf)) (st.text r))
    (fun r => r ≠ .ebuf ∧ HasName name (st.text r)) (p := .ebuf) (by simp) ?_ st.environ))
  intro r hr
  have hr' : nameOf (st.text r) = nameOf (st.text .ebuf) := (of_decide_eq_true hr).nameOf (nameOf_noEquals _)
  refine decide_eq_false fun h => hne ?_
  rw [← h.2.nameOf hn, hr']

/-- the others: what they have in entries of their own -/
theorem getenv_other (h : Sets st c) (hn : equals ∉ name) (hne : name ≠ c.name) :
    getenv (setenv st c) name = ownValue st name := by
  have hebuf := nameOf_append c.nameOk.2 c.value
  rw [setenv_sets h, getenv_eq_own hn, ownValue_putenv hn, ownValue_ebuf]
  · rwa [text_set, hebuf]
  · change nameOf (Process.text { st with ebuf := writeEbuf st.ebuf c.name c.value } .ebuf) ≠ name
    rw [text_set, hebuf]
    exact hne.symm

/-- the call leaves a value to the variable that `ebuf` holds: it sets none, or `ebuf` has not been handed to `putenv`
yet, or the call is about that variable, or the variable has the same value in an entry of its own -/
def Keeps (st : Process) (c : Call) : Prop :=
  ¬ Sets st c ∨ .ebuf ∉ st.environ ∨ nameOf (st.text .ebuf) = c.name ∨
    ownValue st (nameOf (st.text .ebuf)) = getenv st (nameOf (st.text .ebuf))

theorem own_of_not_mem (h : .ebuf ∉ st.environ) (name : List Byte) : ownValue st name = getenv st name := by
  have hfind : st.environ.find? (fun p => decide (p ≠ .ebuf ∧ HasName name (st.text p))) =
      st.environ.find? (fun p => decide (HasName name (st.text p))) := by
    refine List.find?_congr fun p hp => ?_
    have hne : p ≠ .ebuf := ne_of_mem_of_not_mem hp h
    simp [hne]
  rw [ownValue, getenv, hfind]

/-- the environment is the map `env` -/
def Is (st : Process) (env : List Byte → Option (List Byte)) : Prop := ∀ name, equals ∉ name → getenv st name = env name

theorem getenv_nil (st : Process) : getenv st [] = none := if_pos rfl

/-- a call with the empty name always sets it, and `getenv` does not find it -/
theorem not_setenv_is {env : List Byte → Option (List Byte)} (h : Is st env) (hnil : c.name = []) :
    ¬ Is (setenv st c) (apply env c) := by
  intro his
  have hnone : env c.name = none := by rw [← h c.name c.nameOk.2, hnil, getenv_nil]
  have hvalue := his c.name c.nameOk.2
  rw [apply, if_pos (.inl hnone), Function.update_self, hnil, getenv_nil] at hvalue
  cases hvalue

theorem setenv_is {env : List Byte → Option (List Byte)} (h : Is st env) (c : Call) :
    Is (setenv st c) (apply env c) ↔ c.name ≠ [] ∧ Keeps st c := by
  by_cases hnil : c.name = []
  · exact iff_of_false (not_setenv_is h hnil) fun hk => hk.1 hnil
  rw [and_iff_right hnil]
  have hname := h c.name c.nameOk.2
  by_cases hs : Sets st c
  · have happly : apply env c = Function.update env c.name (some c.value) := if_pos (hname ▸ hs)
    rw [happly]
    constructor
    · intro his
      by_cases hc : nameOf (st.text .ebuf) = c.name
      · exact .inr (.inr (.inl hc))
      · have hn := nameOf_noEquals (st.text .ebuf)
        have hown := his _ hn
        rw [getenv_other hs hn hc, Function.update_of_ne hc, ← h _ hn] at hown
        exact .inr (.inr (.inr hown))
    · intro hk x hx
      by_cases hxc : x = c.name
      · rw [hxc, getenv_set hs hnil, Function.update_self]
      · -- of the other variables only the one that was in `ebuf` can have changed
        rw [getenv_other hs hx hxc, Function.update_of_ne hxc, ← h x hx]
        rcases hk with hk | hk | hk | hk
        · exact absurd hs hk
        · exact own_of_not_mem hk x
        · exact (getenv_eq_own hx (by rw [hk]; exact Ne.symm hxc)).symm
        · by_cases hxe : nameOf (st.text .ebuf) = x
          · rwa [hxe] at hk
          · exact (getenv_eq_own hx hxe).symm
  · have hst : setenv st c = st := if_neg hs
    have happly : apply env c = env := if_neg (hname ▸ hs)
    rw [hst, happly]
    exact ⟨fun _ => .inl hs, fun _ => h⟩

/-! ## Sequences of calls -/

theorem run_concat (st : Process) (calls : List Call) (c : Call) : run st (calls ++ [c]) = setenv (run st calls) c := by
  simp [run]

theorem applyAll_concat (env : List Byte → Option (List Byte)) (calls : List Call) (c : Call) :
    applyAll env (calls ++ [c]) = apply (applyAll env calls) c := by
  simp [applyAll]

/-- **`setenv` as a map update.** For every initial environment and every sequence of calls: after each of the calls,
`getenv` of every name returns what the calls up to it should have made of the environment, exactly when each call has a
name that is not empty and leaves a value to the variable that `ebuf` holds. -/
theorem setenv_iff (strings : List (List Byte)) (calls : List Call) :
    (∀ done, done <+: calls → ∀ name, equals ∉ name →
      getenv (run (start strings) done) name = applyAll (getenv (start strings)) done name) ↔
    ∀ done c, done ++ [c] <+: calls → c.name ≠ [] ∧ Keeps (run (start strings) done) c := by
  constructor
  · intro h done c hdone
    have hbefore : Is _ _ := h done ((List.prefix_append done [c]).trans hdone)
    have hafter : Is _ _ := h (done ++ [c]) hdone
    rw [run_concat, applyAll_concat] at hafter
    exact (setenv_is hbefore c).1 hafter
  · intro h done
    induction done using List.reverseRecOn with
    | nil => exact fun _ _ _ => rfl
    | append_singleton done c ih =>
      intro hdone
      have hbefore : Is _ _ := ih ((List.prefix_append done [c]).trans hdone)
      rw [run_concat, applyAll_concat]
      exact (setenv_is hbefore c).2 (h done c hdone)

/-- `A=1`, and `B=2` -/
def setA : Call := ⟨[65], [49], 1, by decide, by decide, by decide⟩
def setB : Call := ⟨[66], [50], 1, by decide, by decide, by decide⟩

/-- the second variable takes the place of the first -/
theorem setenv_lost : getenv (run (start []) [setA, setB]) [65] = none ∧
    applyAll (getenv (start [])) [setA, setB] [65] = some [49] := by
  decide +kernel

end OsPractice.Setenv
