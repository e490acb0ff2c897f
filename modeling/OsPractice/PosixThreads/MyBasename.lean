/-
`my_basename` (`POSIXthreads-thrdsf-lclstrg/pathmanip_threadsafe.c`): the base name of a path, in a buffer that each
thread has of its own.

The loop that skips the slashes at the end of the path finds the right end, but nothing uses it: the last slash is
searched for in the whole path, and what is behind it is copied. So a path that ends with a slash has the empty base
name. The NUL that is written behind the copy lies behind the block of `PATH_MAX` bytes.

A buffer is the block together with what lies behind it. A path is a string without NUL that is shorter than `PATH_MAX`.

Results:
- `endOf_end`: the end that the loop finds;
- `writeResult_text`, `writeResult_behind`: what the code leaves in the buffer, and behind the block;
- `myBasename_iff`: when that is the base name.
-/
import OsPractice.Core.CString

namespace OsPractice.MyBasename

open Bytes CString

def PATH_MAX : ℕ := 4096

/-- `'/'` -/
def slash : Byte := 47

/-- `'.'` -/
def dot : Byte := 46

/-! ## The program -/

/-- the memory from a block of `PATH_MAX` bytes on -/
structure Buffer where
  bytes : List Byte
  room : PATH_MAX ≤ bytes.length

def Buffer.text (buf : Buffer) : List Byte := cstring buf.bytes

/-- the loop that moves `end` back, from the index `i` on -/
def skipSlashes (path : List Byte) : ℕ → ℕ
  | 0 => 0
  | i + 1 => if path[i + 1]? = some slash then skipSlashes path i else i + 1

def endOf (path : List Byte) : ℕ := skipSlashes path (path.length - 1)

/-- `strncpy(buf, src, PATH_MAX)` and the NUL -/
def copyTo (buf : Buffer) (src : List Byte) : Buffer where
  bytes := (strncpy buf.bytes src PATH_MAX).set PATH_MAX 0
  room := by
    rw [List.length_set, strncpy_length src buf.room]
    exact buf.room

/-- the buffer after the path has been worked on -/
def writeResult (path : Option (List Byte)) (buf : Buffer) : Buffer :=
  match path with
  | none | some [] => ⟨(buf.bytes.set 0 dot).set 1 0, by simpa using buf.room⟩
  | some path =>
    let _end := endOf path
    match strrchr slash path with
    | none => copyTo buf path
    | some last_slash => copyTo buf (path.drop (last_slash + 1))

/-- what the library returns: `pthread_once`, `pthread_getspecific`, `malloc` and `pthread_setspecific` -/
structure Lib where
  once : ℤ
  getspecific : Option Buffer
  malloc : Option Buffer
  setspecific : ℤ

def myBasename (lib : Lib) (path : Option (List Byte)) : Option Buffer :=
  if lib.once ≠ 0 then none
  else
    match lib.getspecific with
    | some buf => some (writeResult path buf)
    | none =>
      match lib.malloc with
      | none => none
      | some buf => if lib.setspecific ≠ 0 then none else some (writeResult path buf)

/-- the thread has a buffer, or gets one -/
def Lib.HasBuffer (lib : Lib) : Prop :=
  lib.once = 0 ∧ (lib.getspecific.isSome ∨ lib.malloc.isSome ∧ lib.setspecific = 0)

/-- the base name of a path: what is behind the last slash that has something else than slashes behind it -/
def basename : Option (List Byte) → List Byte
  | none | some [] => [dot]
  | some path =>
    let body := path.rdropWhile (· = slash)
    if body = [] then [slash] else body.rtakeWhile (· ≠ slash)

/-! ## The end of the path -/

variable {path : List Byte}

theorem skipSlashes_end (path : List Byte) (i : ℕ) (hi : i < path.length)
    (h : (path.take (i + 1)).rdropWhile (· = slash) ≠ []) :
    (path.take (i + 1)).rdropWhile (· = slash) = path.take (skipSlashes path i + 1) := by
  induction i with
  | zero =>
    obtain ⟨b, path, rfl⟩ := List.exists_cons_of_length_pos hi
    rw [List.take_succ_cons, List.take_zero, List.rdropWhile_singleton] at h ⊢
    split_ifs at h ⊢
    · exact absurd rfl h
    · rfl
  | succ i ih =>
    have htake : path.take (i + 1 + 1) = path.take (i + 1) ++ [path[i + 1]] := List.take_succ_eq_append_getElem hi
    rw [skipSlashes, List.getElem?_eq_getElem hi]
    by_cases hs : path[i + 1] = slash
    · rw [htake, List.rdropWhile_concat_pos _ _ _ (by simpa using hs)] at h ⊢
      rw [if_pos (by rw [hs]), ih (by omega) h]
    · rw [if_neg (by simpa using hs), htake, List.rdropWhile_concat_neg _ _ _ (by simpa using hs)]

/-- the loop finds where the slashes at the end begin -/
theorem endOf_end (h : path.rdropWhile (· = slash) ≠ []) :
    path.rdropWhile (· = slash) = path.take (endOf path + 1) := by
  have hpos : path ≠ [] := by
    rintro rfl
    exact h rfl
  have hlen : path.length - 1 + 1 = path.length := Nat.sub_add_cancel (List.length_pos_iff.2 hpos)
  have hend := skipSlashes_end path (path.length - 1) (by omega)
  rw [hlen, List.take_length] at hend
  exact hend h

/-! ## What is in the buffer -/

theorem rtakeWhile_split {c : Byte} {init rest : List Byte} (hc : c ∉ rest) :
    (init ++ c :: rest).rtakeWhile (· ≠ c) = rest := by
  have hrev : (init ++ c :: rest).reverse = rest.reverse ++ c :: init.reverse := by simp
  rw [List.rtakeWhile, hrev, takeWhile_ne (mt List.mem_reverse.1 hc), List.reverse_reverse]

theorem copyTo_text (buf : Buffer) {src : List Byte} (h0 : 0 ∉ src) (hlen : src.length < PATH_MAX) :
    (copyTo buf src).text = src := by
  obtain ⟨rest, hrest⟩ := strncpy_eq hlen buf.bytes
  obtain ⟨k, hk⟩ : ∃ k, PATH_MAX - src.length = k + 1 := ⟨PATH_MAX - src.length - 1, by omega⟩
  change cstring ((strncpy buf.bytes src PATH_MAX).set PATH_MAX 0) = src
  rw [hrest, List.set_append_right _ _ hlen.le, hk, List.set_cons_succ]
  exact cstring_append h0 _

/-- what is copied: all that is behind the last slash of the path -/
theorem writeResult_text (buf : Buffer) (hne : path ≠ []) (h0 : 0 ∉ path) (hlen : path.length < PATH_MAX) :
    (writeResult (some path) buf).text = path.rtakeWhile (· ≠ slash) := by
  have hres : writeResult (some path) buf =
      match strrchr slash path with
      | none => copyTo buf path
      | some last_slash => copyTo buf (path.drop (last_slash + 1)) := by
    cases path with
    | nil => exact absurd rfl hne
    | cons b path => rfl
  rw [hres]
  cases hlast : strrchr slash path with
  | none =>
    have hall : path.rtakeWhile (· ≠ slash) = path := List.rtakeWhile_eq_self_iff.2 fun b hb =>
      decide_eq_true (ne_of_mem_of_not_mem hb (strrchr_none hlast))
    rw [hall]
    exact copyTo_text buf h0 hlen
  | some i =>
    obtain ⟨init, rest, rfl, hrest, hdrop⟩ := strrchr_drop hlast
    simp only [hdrop]
    rw [rtakeWhile_split hrest]
    refine copyTo_text buf (fun h => h0 ?_) ?_
    · exact List.mem_append_right _ (List.mem_cons_of_mem _ h)
    · simp only [List.length_append, List.length_cons] at hlen
      omega

/-- a NUL is written behind the block, for every path that is not empty -/
theorem writeResult_behind (buf : Buffer) (hne : path ≠ []) (hlen : PATH_MAX < buf.bytes.length) :
    (writeResult (some path) buf).bytes[PATH_MAX]? = some 0 := by
  have hcopy : ∀ src, (copyTo buf src).bytes[PATH_MAX]? = some 0 := fun src => by
    rw [copyTo, List.getElem?_set_self]
    rwa [strncpy_length src buf.room]
  cases path with
  | nil => exact absurd rfl hne
  | cons b path =>
    simp only [writeResult]
    split
    · exact hcopy _
    · exact hcopy _

/-! ## The base name -/

theorem writeResult_dot (buf : Buffer) : cstring ((buf.bytes.set 0 dot).set 1 0) = [dot] := by
  have hroom := buf.room
  rcases hb : buf.bytes with _ | ⟨x, _ | ⟨y, rest⟩⟩
  · simp [hb, PATH_MAX] at hroom
  · simp [hb, PATH_MAX] at hroom
  · have hdot : (0 : Byte) ∉ [dot] := by decide
    exact cstring_append hdot rest

/-- a path that does not end with a slash -/
theorem basename_plain (hne : path ≠ []) (h : path.getLast? ≠ some slash) :
    basename (some path) = path.rtakeWhile (· ≠ slash) := by
  have hbody : path.rdropWhile (· = slash) = path := by
    refine List.rdropWhile_eq_self_iff.2 fun hl hlast => h ?_
    rw [List.getLast?_eq_some_getLast hl, of_decide_eq_true hlast]
  cases path with
  | nil => exact absurd rfl hne
  | cons b path =>
    simp only [basename]
    rw [hbody, if_neg hne]

/-- the base name of a path that is not empty is not empty -/
theorem basename_ne_nil (path : Option (List Byte)) : basename path ≠ [] := by
  unfold basename
  split
  · simp
  · simp
  · rename_i path _
    simp only
    split_ifs with hbody
    · simp
    · intro h
      refine List.rtakeWhile_eq_nil_iff.1 h hbody ?_
      simpa using List.rdropWhile_last_not (fun b => decide (b = slash)) path hbody

theorem writeResult_iff (buf : Buffer) (path : Option (List Byte)) (hpath : ∀ s ∈ path, 0 ∉ s ∧ s.length < PATH_MAX) :
    (writeResult path buf).text = basename path ↔ ∀ s ∈ path, s.getLast? ≠ some slash := by
  rcases path with _ | path
  · simpa [writeResult, Buffer.text, basename] using writeResult_dot buf
  · by_cases hne : path = []
    · subst hne
      simpa [writeResult, Buffer.text, basename] using writeResult_dot buf
    · obtain ⟨h0, hlen⟩ := hpath path rfl
      rw [writeResult_text buf hne h0 hlen]
      constructor
      · rintro h s hs hlast
        cases Option.mem_some.1 hs
        refine basename_ne_nil (some path) (h ▸ List.rtakeWhile_eq_nil_iff.2 fun hl => ?_)
        rw [List.getLast?_eq_some_getLast hl, Option.some_inj] at hlast
        simp [hlast]
      · intro h
        rw [basename_plain hne (h path rfl)]

/-- **The base name.** For every path, NULL or a string, and every answer of the library: `my_basename` returns a buffer
with the base name of the path exactly when the thread has a buffer and the path does not end with a slash. -/
theorem myBasename_iff (lib : Lib) (path : Option (List Byte)) (hpath : ∀ s ∈ path, 0 ∉ s ∧ s.length < PATH_MAX) :
    (myBasename lib path).map Buffer.text = some (basename path) ↔
      lib.HasBuffer ∧ ∀ s ∈ path, s.getLast? ≠ some slash := by
  have hwrite := fun buf => writeResult_iff buf path hpath
  unfold myBasename Lib.HasBuffer
  by_cases honce : lib.once = 0
  · cases hspec : lib.getspecific with
    | some buf => simp [honce, hwrite]
    | none =>
      cases hmalloc : lib.malloc with
      | none => simp [honce]
      | some buf =>
        by_cases hset : lib.setspecific = 0
        · simp [honce, hset, hwrite]
        · simp [honce, hset]
  · simp [honce]

/-- a thread that gets its buffer -/
def fresh : Lib := ⟨0, none, some ⟨List.replicate PATH_MAX 1, by simp⟩, 0⟩

/-- `/usr` and `usr/` -/
theorem myBasename_iff_usr : (myBasename fresh (some [47, 117, 115, 114])).map Buffer.text =
    some (basename (some [47, 117, 115, 114])) :=
  (myBasename_iff fresh (some [47, 117, 115, 114]) (by simp; decide)).2
    ⟨⟨rfl, .inr ⟨rfl, rfl⟩⟩, by simp; decide⟩

theorem myBasename_slash : (myBasename fresh (some [117, 115, 114, 47])).map Buffer.text = some [] ∧
    basename (some [117, 115, 114, 47]) = [117, 115, 114] ∧
    (myBasename fresh (some [117, 115, 114, 47])).map Buffer.text ≠ some (basename (some [117, 115, 114, 47])) := by
  have htext : (myBasename fresh (some [117, 115, 114, 47])).map Buffer.text = some [] :=
    congrArg some (writeResult_text _ (by decide) (by decide) (by decide))
  rw [htext]
  exact ⟨rfl, by decide, by decide⟩

end OsPractice.MyBasename
