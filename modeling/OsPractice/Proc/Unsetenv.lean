/-
`unsetenv` (`proc/envmanip.c`). It walks through `environ` to the NULL, compares each entry with the name it is given,
and shifts the following entries over an entry that matches.

The comparison has the length of the entry's own name, so an entry with a shorter name that the given one begins with
matches too. And the loop goes on behind the place of an entry it has removed, so it never looks at the entry that has
been shifted there.

`shiftenvl` is not part of the program: the following entries and the NULL move one place left, and the place of the NULL
keeps a NULL. An entry is a string with a `=`.

Results:
- `unsetenv_total`: the loop ends, and what is left;
- `unsetenv_iff`: when exactly the named entries are removed.
-/
import OsPractice.Core.CString
import Mathlib.Data.List.Chain

namespace OsPractice.Unsetenv

open Bytes CString

/-! ## The program -/

/-- `'='` -/
def equals : Byte := 61

/-- a string `name=value` -/
structure Entry where
  text : List Byte
  noNul : 0 ∉ text
  hasEquals : equals ∈ text
  deriving DecidableEq

def Entry.name (e : Entry) : List Byte := e.text.takeWhile (· ≠ equals)

/-- `eq - *ep`; every entry has a `=` -/
def Entry.eqOff (e : Entry) : ℕ := (strchr equals e.text).getD 0

/-- what follows the place `ep` moves one place left -/
def shiftenvl (environ : List (Option Entry)) (ep : ℕ) : List (Option Entry) :=
  environ.take ep ++ environ.drop (ep + 1) ++ [none]

def Matches (name : List Byte) (e : Entry) : Prop := strncmp name e.text e.eqOff = 0

instance (name : List Byte) (e : Entry) : Decidable (Matches name e) := inferInstanceAs (Decidable (_ = _))

/-- the loop, for at most `fuel` rounds; `none` if it has not ended by then, or if it reads behind the array -/
def unsetLoop (name : List Byte) : ℕ → List (Option Entry) → ℕ → Option (List (Option Entry))
  | 0, _, _ => none
  | fuel + 1, environ, ep =>
    match environ[ep]? with
    | none => none
    | some none => some environ
    | some (some e) => unsetLoop name fuel (if Matches name e then shiftenvl environ ep else environ) (ep + 1)

def unsetenv (name : List Byte) (environ : List (Option Entry)) : Option (List (Option Entry)) :=
  unsetLoop name environ.length environ 0

/-- the array of a list of entries -/
def ofList (es : List Entry) : List (Option Entry) := es.map some ++ [none]

/-- the entries before the first NULL -/
def entries (environ : List (Option Entry)) : List Entry := (environ.takeWhile Option.isSome).reduceOption

/-! ## What the loop leaves -/

/-- the entries that are left; with `skip`, the loop has gone on behind the first one -/
def kept (name : List Byte) : Bool → List Entry → List Entry
  | _, [] => []
  | true, e :: es => e :: kept name false es
  | false, e :: es => if Matches name e then kept name true es else e :: kept name false es

variable {name : List Byte} {e : Entry} {es : List Entry}

/-- the loop compares the given name with as many bytes as the entry's name has -/
theorem matches_iff (h0 : 0 ∉ name) : Matches name e ↔ e.name <+: name := by
  have hlen : e.eqOff = e.name.length := by simp [Entry.eqOff, Entry.name, strchr_idx e.hasEquals]
  have htake : e.text.take e.name.length = e.name := (List.prefix_iff_eq_take.1 (List.takeWhile_prefix _)).symm
  rw [Matches, strncmp_eq_zero h0 e.noNul, hlen, htake, List.prefix_iff_eq_take]
  exact eq_comm

/-- the array while the loop runs: the entries it has passed, those to come, and NULLs -/
def during (passed es : List Entry) (k : ℕ) : List (Option Entry) :=
  (passed ++ es).map some ++ List.replicate k none

theorem during_null (passed : List Entry) {k i : ℕ} (hi : passed.length ≤ i) (hk : i < passed.length + k) :
    (during passed [] k)[i]? = some none := by
  have hlt : i - passed.length < k := by omega
  rw [during, List.append_nil, List.getElem?_append_right (by simpa using hi), List.length_map,
    List.getElem?_replicate, if_pos hlt]

theorem during_entry (passed es : List Entry) (e : Entry) (k : ℕ) :
    (during passed (e :: es) k)[passed.length]? = some (some e) := by
  simp [during]

theorem during_pass (passed es : List Entry) (e : Entry) (k : ℕ) :
    during passed (e :: es) k = during (passed ++ [e]) es k := by
  simp [during]

theorem shiftenvl_during (passed es : List Entry) (e : Entry) (k : ℕ) :
    shiftenvl (during passed (e :: es) k) passed.length = during passed es (k + 1) := by
  have htake : (during passed (e :: es) k).take passed.length = passed.map some := by
    rw [during, List.map_append, List.append_assoc]
    exact List.take_left' (by simp)
  have hdrop : (during passed (e :: es) k).drop (passed.length + 1) = es.map some ++ List.replicate k none := by
    rw [during_pass, during, List.map_append, List.append_assoc]
    exact List.drop_left' (by simp)
  calc shiftenvl (during passed (e :: es) k) passed.length
      = passed.map some ++ (es.map some ++ List.replicate k none) ++ [none] := by rw [shiftenvl, htake, hdrop]
    _ = (passed ++ es).map some ++ (List.replicate k none ++ [none]) := by simp
    _ = during passed es (k + 1) := by rw [during, List.replicate_succ']

/-- the loop from the entries `es` on -/
theorem unsetLoop_during (name : List Byte) (skip : Bool) (es passed : List Entry) (k fuel : ℕ)
    (hk : skip.toNat < k) (hf : es.length < fuel + skip.toNat) (hpos : 0 < fuel) :
    ∃ k', 0 < k' ∧ unsetLoop name fuel (during passed es k) (passed.length + skip.toNat) =
      some (during passed (kept name skip es) k') := by
  induction es generalizing skip passed k fuel with
  | nil =>
    obtain ⟨f, rfl⟩ := Nat.exists_eq_succ_of_ne_zero hpos.ne'
    refine ⟨k, by omega, ?_⟩
    rw [unsetLoop, during_null passed (by omega) (by omega), kept]
  | cons e es ih =>
    rw [List.length_cons] at hf
    cases skip with
    | true =>
      -- nothing is done for `e`
      simp only [Bool.toNat_true] at hk hf
      obtain ⟨k', hk', h⟩ := ih false (passed ++ [e]) k fuel (by simp; omega) (by simp; omega) hpos
      refine ⟨k', hk', ?_⟩
      rw [during_pass, kept, during_pass]
      simpa using h
    | false =>
      simp only [Bool.toNat_false, add_zero] at hk hf ⊢
      obtain ⟨f, rfl⟩ := Nat.exists_eq_succ_of_ne_zero hpos.ne'
      rw [unsetLoop, during_entry]
      by_cases hm : Matches name e
      · obtain ⟨k', hk', h⟩ := ih true passed (k + 1) f (by simp; omega) (by simp; omega) (by omega)
        refine ⟨k', hk', ?_⟩
        simp only [if_pos hm, shiftenvl_during, kept]
        simpa using h
      · obtain ⟨k', hk', h⟩ := ih false (passed ++ [e]) k f (by simp; omega) (by simp; omega) (by omega)
        refine ⟨k', hk', ?_⟩
        simp only [if_neg hm, kept, during_pass]
        simpa using h

theorem entries_during (es : List Entry) {k : ℕ} (hk : 0 < k) : entries (during [] es k) = es := by
  obtain ⟨n, rfl⟩ := Nat.exists_eq_succ_of_ne_zero hk.ne'
  have hsome : ∀ x ∈ es.map some, x.isSome = true := by simp
  have hnull : (List.replicate (n + 1) (none : Option Entry)).takeWhile Option.isSome = [] := by
    rw [List.replicate_succ, List.takeWhile_cons_of_neg (by simp)]
  calc entries (during [] es (n + 1))
      = ((es.map some ++ List.replicate (n + 1) none).takeWhile Option.isSome).reduceOption := rfl
    _ = (es.map some).reduceOption := by rw [List.takeWhile_append_of_pos hsome, hnull, List.append_nil]
    _ = (es.map some).filterMap id := rfl
    _ = es := by simp

/-- the loop ends, for every list of entries -/
theorem unsetenv_total (name : List Byte) (es : List Entry) :
    (unsetenv name (ofList es)).map entries = some (kept name false es) := by
  obtain ⟨k', hk', h⟩ := unsetLoop_during name false es [] 1 (es.length + 1) (by simp) (by simp) (by simp)
  have hof : ofList es = during [] es 1 := by simp [ofList, during]
  have hlen : (during [] es 1).length = es.length + 1 := by simp [during]
  simp only [List.length_nil, Bool.toNat_false, add_zero] at h
  calc (unsetenv name (ofList es)).map entries
      = (some (during [] (kept name false es) k')).map entries := by rw [unsetenv, hof, hlen, h]
    _ = some (kept name false es) := by rw [Option.map_some, entries_during _ hk']

/-! ## When the right entries are removed -/

/-- the entries that are not of this name -/
def others (name : List Byte) (es : List Entry) : List Entry := es.filter fun e => e.name ≠ name

/-- the name of `e` is shorter than `name` and begins it -/
def Shorter (name : List Byte) (e : Entry) : Prop := e.name <+: name ∧ e.name ≠ name

/-- `e'` may stand directly behind `e`: not two of the name, and a shorter one behind one of the name only -/
def Follows (name : List Byte) (e e' : Entry) : Prop :=
  (e.name = name → e'.name ≠ name) ∧ (Shorter name e' → e.name = name)

theorem kept_sublist (name : List Byte) (skip : Bool) (es : List Entry) : (kept name skip es).Sublist es := by
  induction es generalizing skip with
  | nil =>
    rw [kept]
  | cons e es ih =>
    cases skip with
    | true =>
      rw [kept]
      exact (ih false).cons_cons e
    | false =>
      rw [kept]
      split_ifs
      · exact (ih true).cons e
      · exact (ih false).cons_cons e

theorem others_named (h : e.name = name) (es : List Entry) : others name (e :: es) = others name es := by
  simp [others, h]

theorem others_other (h : e.name ≠ name) (es : List Entry) : others name (e :: es) = e :: others name es := by
  simp [others, h]

/-- what is left has no more entries of other names than there were -/
theorem kept_ne_cons (skip : Bool) (es : List Entry) (he : e.name ≠ name) :
    kept name skip es ≠ e :: others name es := by
  intro h
  have hsub : (others name (kept name skip es)).Sublist (others name es) := (kept_sublist name skip es).filter _
  have hall : others name (e :: others name es) = e :: others name es := by
    rw [others_other he, others, others, List.filter_filter]
    simp
  have hlen := hsub.length_le
  rw [h, hall, List.length_cons] at hlen
  omega

theorem named_ne_others (he : e.name = name) (xs es : List Entry) : e :: xs ≠ others name es := by
  intro h
  have hmem : e ∈ others name es := h ▸ List.mem_cons_self
  rw [others, List.mem_filter] at hmem
  simp [he] at hmem

/-- the induction over the list: behind an entry of the name (`skip`) there is no other, and elsewhere no shorter one -/
theorem kept_eq_others (h0 : 0 ∉ name) (skip : Bool) (es : List Entry) : kept name skip es = others name es ↔
    (∀ e ∈ es.head?, if skip then e.name ≠ name else ¬ Shorter name e) ∧ es.IsChain (Follows name) := by
  induction es generalizing skip with
  | nil => simp [kept, others]
  | cons e es ih =>
    rw [List.isChain_cons]
    by_cases he : e.name = name
    · have hfollow : ∀ y, Follows name e y ↔ y.name ≠ name := fun y => by simp [Follows, he]
      have hmatch : Matches name e := (matches_iff h0).2 (he ▸ List.prefix_refl _)
      have hshort : ¬ Shorter name e := fun h => h.2 he
      cases skip with
      | true => simp [kept, named_ne_others he, he]
      | false =>
        rw [kept, if_pos hmatch, others_named he, ih true]
        simp [hfollow, hshort]
    · have hfollow : ∀ y, Follows name e y ↔ ¬ Shorter name y := fun y => by simp [Follows, he]
      rw [others_other he]
      cases skip with
      | true =>
        rw [kept, List.cons_inj_right, ih false]
        simp [hfollow, he]
      | false =>
        by_cases hmatch : Matches name e
        · have hshort : Shorter name e := ⟨(matches_iff h0).1 hmatch, he⟩
          rw [kept, if_pos hmatch]
          simp [kept_ne_cons true es he, hshort]
        · have hshort : ¬ Shorter name e := fun h => hmatch ((matches_iff h0).2 h.1)
          rw [kept, if_neg hmatch, List.cons_inj_right, ih false]
          simp [hfollow, hshort]

/-- **`unsetenv`.** For every list of entries and every name, the loop ends; and the entries that are left are those of
other names, in their order, exactly when no entry of the name stands directly behind another, and every entry whose name
is shorter and begins the given one stands directly behind an entry of that name. -/
theorem unsetenv_iff (name : List Byte) (h0 : 0 ∉ name) (es : List Entry) :
    (unsetenv name (ofList es)).map entries = some (es.filter fun e => e.name ≠ name) ↔
      (∀ e ∈ es.head?, ¬ Shorter name e) ∧ es.IsChain (Follows name) := by
  have := kept_eq_others h0 false es
  rw [unsetenv_total, Option.some_inj]
  simpa only [others, Bool.false_eq_true, if_false] using this

/-- `A=1`, `B=2` and `A=3` -/
def a1 : Entry := ⟨[65, 61, 49], by decide, by decide⟩
def b2 : Entry := ⟨[66, 61, 50], by decide, by decide⟩
def a3 : Entry := ⟨[65, 61, 51], by decide, by decide⟩

theorem unsetenv_iff_apart : (unsetenv [65] (ofList [a1, b2, a3])).map entries = some [b2] :=
  (unsetenv_iff [65] (by decide) [a1, b2, a3]).2
    ⟨by simp [Shorter, Entry.name, a1, equals], by simp [Follows, Shorter, Entry.name, a1, b2, a3, equals]⟩

/-- of two entries of the name, one behind the other, the second is left; and with `AB` to be removed, `A` is -/
theorem unsetenv_wrong :
    (unsetenv [65] (ofList [a1, a3])).map entries = some [a3] ∧
    ([a1, a3].filter fun e => e.name ≠ [65]) = [] ∧
    (unsetenv [65, 66] (ofList [a1])).map entries = some [] ∧
    ([a1].filter fun e => e.name ≠ [65, 66]) = [a1] := by
  decide

end OsPractice.Unsetenv
