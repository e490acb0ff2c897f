/-
`chattr` (`fileattrs/chattr.c`). The letters behind the sign name the flags that are set, cleared or assigned. They are
copied into an array of 20 characters; what is behind the 19th letter is ignored.

Several paths may lead to one file. `open` and `ioctl` succeed.

Results:
- `attrsOf_text`: the letters that are looked at;
- `parse_none`, `parse_bits`: what is made of them, in any order;
- `finalFlags`: the flags after a run;
- `applies_all_letters`: when the flags are those that all the letters name.
-/
import OsPractice.Core.CString
import OsPractice.Core.FileAttrs

namespace OsPractice.Chattr

open Bytes CString FileAttrs

variable {N K : Type} [DecidableEq K]

/-! ## The program -/

def FS_COMPR_FL : BitVec 32 := 0x00000004#32
def FS_APPEND_FL : BitVec 32 := 0x00000020#32
def FS_NODUMP_FL : BitVec 32 := 0x00000040#32
def FS_NOATIME_FL : BitVec 32 := 0x00000080#32
def FS_DIRSYNC_FL : BitVec 32 := 0x00010000#32
def FS_EXTENT_FL : BitVec 32 := 0x00080000#32

inductive Act where
  | add
  | sub
  | asn
deriving DecidableEq, Repr

/-- the `switch` in the loop over the letters; `none` is the default -/
def attr (c : Byte) : Option (BitVec 32) :=
  match c with
  | 0x61#8 => some FS_APPEND_FL  -- a
  | 0x41#8 => some FS_NOATIME_FL  -- A
  | 0x63#8 => some FS_COMPR_FL  -- c
  | 0x64#8 => some FS_NODUMP_FL  -- d
  | 0x44#8 => some FS_DIRSYNC_FL  -- D
  | 0x65#8 => some FS_EXTENT_FL  -- e
  | _ => none

/-- the loop over the letters; `none` when the program exits with an error -/
def parse : List Byte → BitVec 32 → Option (BitVec 32)
  | [], newattrs => some newattrs
  | c :: attrs, newattrs =>
    match attr c with
    | none => none
    | some fl => parse attrs (newattrs ||| fl)

def apply (act : Act) (currattrs newattrs : BitVec 32) : BitVec 32 :=
  match act with
  | .add => currattrs ||| newattrs
  | .sub => currattrs &&& ~~~newattrs
  | .asn => newattrs

/-- `chattr` for one path -/
def chattr (key : N → K) (flags : K → BitVec 32) (path : N) (attrs : List Byte) (act : Act) :
    Option (K → BitVec 32) :=
  (parse attrs 0#32).map fun newattrs =>
    Function.update flags (key path) (apply act (flags (key path)) newattrs)

/-- the loop over the paths: the flags when the program exits, and whether it exits with success -/
def loop (key : N → K) (attrs : List Byte) (act : Act) (flags : K → BitVec 32) : List N → (K → BitVec 32) × Bool
  | [] => (flags, true)
  | path :: paths =>
    match chattr key flags path attrs act with
    | none => (flags, false)
    | some flags => loop key attrs act flags paths

/-- the array `attrs` after the copy; `buf` is what was in it before -/
def attrsOf (buf s : List Byte) : List Byte := (strncpy buf s 19).set 19 0

def signOf (c : Byte) : Option Act :=
  match c with
  | 0x2b#8 => some .add  -- +
  | 0x2d#8 => some .sub  -- -
  | 0x3d#8 => some .asn  -- =
  | _ => none

def chattrMain (key : N → K) (flags : K → BitVec 32) (buf mode : List Byte) (paths : List N) :
    (K → BitVec 32) × Bool :=
  if paths = [] then (flags, false)
  else
    match mode with
    | [] => (flags, false)
    | c :: s =>
      match signOf c with
      | none => (flags, false)
      | some act => loop key (cstring (attrsOf buf s)) act flags paths

/-! ## What is wanted -/

/-- the sign for an action -/
def Act.sign : Act → Byte
  | .add => 0x2b#8
  | .sub => 0x2d#8
  | .asn => 0x3d#8

/-- the bit that a letter names -/
def bit (c : Byte) : Option ℕ :=
  match c with
  | 0x61#8 => some 5
  | 0x41#8 => some 7
  | 0x63#8 => some 2
  | 0x64#8 => some 6
  | 0x44#8 => some 16
  | 0x65#8 => some 19
  | _ => none

/-- a letter of the string names the bit `i` -/
def Named (s : List Byte) (i : ℕ) : Prop := ∃ c ∈ s, bit c = some i

/-- a bit after the action, from what it was before and whether it is named -/
def NewBit (act : Act) (old named : Prop) : Prop :=
  match act with
  | .add => old ∨ named
  | .sub => old ∧ ¬ named
  | .asn => named

/-- a string with a letter that names nothing is refused, with no change; otherwise the files' flags are united with
those named by the letters, lose them or are replaced by them -/
def AppliesAll (key : N → K) (flags : K → BitVec 32) (buf : List Byte) (act : Act) (s : List Byte)
    (paths : List N) : Prop :=
  let final := chattrMain key flags buf (act.sign :: s) paths
  ((∃ c ∈ s, bit c = none) → final = (flags, false)) ∧
    ((∀ c ∈ s, bit c ≠ none) → ∀ k i, (final.1 k).getLsbD i = true ↔
      if k ∈ paths.map key then NewBit act ((flags k).getLsbD i = true) (Named s i) else (flags k).getLsbD i = true)

/-! ## The letters -/

theorem attr_eq (c : Byte) : attr c = (bit c).map (BitVec.twoPow 32) := by
  unfold attr bit
  split <;> rfl

theorem bit_lt {c : Byte} {i : ℕ} (h : bit c = some i) : i < 32 := by
  unfold bit at h
  split at h <;> cases h <;> decide

/-- no two letters name the same bit -/
theorem bit_inj {c c' : Byte} {i : ℕ} (h : bit c = some i) (h' : bit c' = some i) : c = c' := by
  unfold bit at h h'
  split at h <;> cases h <;> split at h' <;> simp_all

theorem parse_none (s : List Byte) (newattrs : BitVec 32) : parse s newattrs = none ↔ ∃ c ∈ s, bit c = none := by
  induction s generalizing newattrs with
  | nil => simp [parse]
  | cons c s ih =>
    rw [parse, attr_eq]
    cases hc : bit c with
    | none => simp [hc]
    | some i => simp [hc, ih]

theorem parse_bits {s : List Byte} {newattrs r : BitVec 32} (h : parse s newattrs = some r) (i : ℕ) :
    r.getLsbD i = true ↔ newattrs.getLsbD i = true ∨ Named s i := by
  induction s generalizing newattrs with
  | nil =>
    cases h
    simp [Named]
  | cons c s ih =>
    rw [parse, attr_eq] at h
    cases hc : bit c with
    | none => simp [hc] at h
    | some j =>
      rw [hc] at h
      have hj := bit_lt hc
      rw [ih h, BitVec.getLsbD_or, BitVec.getLsbD_twoPow]
      simp [Named, hc, hj, or_assoc]

theorem apply_bits (act : Act) (currattrs newattrs : BitVec 32) (i : ℕ) :
    (apply act currattrs newattrs).getLsbD i = true ↔
      NewBit act (currattrs.getLsbD i = true) (newattrs.getLsbD i = true) := by
  cases act with
  | add => simp [apply, NewBit]
  | sub =>
    rw [apply, NewBit, BitVec.getLsbD_and, BitVec.getLsbD_not]
    cases hcurr : currattrs.getLsbD i with
    | false => simp
    | true => simp [BitVec.lt_of_getLsbD hcurr]
  | asn => rfl

theorem apply_idem (act : Act) (currattrs newattrs : BitVec 32) :
    apply act (apply act currattrs newattrs) newattrs = apply act currattrs newattrs := by
  refine BitVec.eq_of_getLsbD_eq fun i _ => Bool.eq_iff_iff.2 ?_
  rw [apply_bits, apply_bits]
  cases act <;> simp only [NewBit] <;> tauto

/-- the letters that are looked at: the first 19 -/
theorem attrsOf_text {buf s : List Byte} (hbuf : buf.length = 20) (h0 : 0 ∉ s) :
    cstring (attrsOf buf s) = s.take 19 := by
  have hlen : (strncpy buf s 19).length = 20 := by rw [strncpy_length s (by omega), hbuf]
  rcases lt_or_ge s.length 19 with h | h
  · obtain ⟨rest, hrest⟩ := strncpy_eq h buf
    obtain ⟨k, hk⟩ : ∃ k, 19 - s.length = k + 1 := ⟨19 - s.length - 1, by omega⟩
    rw [attrsOf, hrest, List.set_append_right _ _ h.le, hk, List.set_cons_succ, List.take_of_length_le h.le]
    exact cstring_append h0 _
  · rw [← strncpy_take h, attrsOf]
    refine cstring_set (by omega) ?_
    rw [strncpy_take h]
    exact fun hmem => h0 (List.mem_of_mem_take hmem)

/-! ## The run -/

theorem loop_refused {attrs : List Byte} (h : ∃ c ∈ attrs, bit c = none) (key : N → K) (act : Act)
    (flags : K → BitVec 32) {paths : List N} (hne : paths ≠ []) : loop key attrs act flags paths = (flags, false) := by
  cases paths with
  | nil => exact absurd rfl hne
  | cons path paths => rw [loop, chattr, (parse_none attrs 0#32).2 h, Option.map_none]

theorem loop_all {attrs : List Byte} {newattrs : BitVec 32} (h : parse attrs 0#32 = some newattrs) (key : N → K)
    (act : Act) (flags : K → BitVec 32) (paths : List N) :
    loop key attrs act flags paths = (applyAll (fun fl => apply act fl newattrs) (paths.map key) flags, true) := by
  induction paths generalizing flags with
  | nil => rfl
  | cons path paths ih =>
    rw [loop, chattr, h, Option.map_some]
    exact ih _

theorem chattrMain_eq {buf s : List Byte} (hbuf : buf.length = 20) (h0 : 0 ∉ s) (key : N → K) (flags : K → BitVec 32)
    (act : Act) {paths : List N} (hne : paths ≠ []) :
    chattrMain key flags buf (act.sign :: s) paths = loop key (s.take 19) act flags paths := by
  have hsign : signOf act.sign = some act := by cases act <;> rfl
  rw [chattrMain, if_neg hne]
  simp only [hsign, attrsOf_text hbuf h0]

theorem exists_parse {attrs : List Byte} (h : ∀ c ∈ attrs, bit c ≠ none) :
    ∃ newattrs, parse attrs 0#32 = some newattrs := by
  refine Option.ne_none_iff_exists'.1 fun hnone => ?_
  obtain ⟨c, hc, hbad⟩ := (parse_none _ _).1 hnone
  exact h c hc hbad

/-- a run in which the first 19 letters all name a flag is not refused -/
theorem final_success {buf s : List Byte} (hbuf : buf.length = 20) (h0 : 0 ∉ s)
    (hgood : ∀ c ∈ s.take 19, bit c ≠ none) (key : N → K) (flags : K → BitVec 32) (act : Act) {paths : List N}
    (hne : paths ≠ []) : (chattrMain key flags buf (act.sign :: s) paths).2 = true := by
  obtain ⟨newattrs, hparse⟩ := exists_parse hgood
  rw [chattrMain_eq hbuf h0 key flags act hne, loop_all hparse]

/-- the flags after such a run -/
theorem finalFlags {buf s : List Byte} (hbuf : buf.length = 20) (h0 : 0 ∉ s) (hgood : ∀ c ∈ s.take 19, bit c ≠ none)
    (key : N → K) (flags : K → BitVec 32) (act : Act) {paths : List N} (hne : paths ≠ []) (k : K) (i : ℕ) :
    ((chattrMain key flags buf (act.sign :: s) paths).1 k).getLsbD i = true ↔
      if k ∈ paths.map key then NewBit act ((flags k).getLsbD i = true) (Named (s.take 19) i)
      else (flags k).getLsbD i = true := by
  obtain ⟨newattrs, hparse⟩ := exists_parse hgood
  have hnamed : newattrs.getLsbD i = true ↔ Named (s.take 19) i := by
    rw [parse_bits hparse]
    simp
  rw [chattrMain_eq hbuf h0 key flags act hne, loop_all hparse]
  dsimp only
  rw [applyAll_eq fun fl => apply_idem act fl newattrs]
  split_ifs
  · rw [apply_bits, hnamed]
  · rfl

/-- a letter changes nothing: its flag is set in all files already, or cleared in all -/
def Redundant (act : Act) (flags : K → BitVec 32) (files : List K) (i : ℕ) : Prop :=
  match act with
  | .add => ∀ k ∈ files, (flags k).getLsbD i = true
  | .sub => ∀ k ∈ files, (flags k).getLsbD i = false
  | .asn => False

omit [DecidableEq K] in
theorem redundant_iff {act : Act} {flags : K → BitVec 32} {files : List K} (hne : files ≠ []) (i : ℕ) :
    Redundant act flags files i ↔ ∀ k ∈ files,
      (NewBit act ((flags k).getLsbD i = true) False ↔ NewBit act ((flags k).getLsbD i = true) True) := by
  cases act with
  | add => simp [Redundant, NewBit]
  | sub => simp [Redundant, NewBit]
  | asn =>
    obtain ⟨k, hk⟩ := List.exists_mem_of_ne_nil files hne
    refine iff_of_false id fun h => ?_
    exact (h k hk).2 trivial

omit [DecidableEq K] in
/-- more letters make no difference -/
theorem newBits_iff {act : Act} {flags : K → BitVec 32} {files : List K} (hne : files ≠ []) (first rest : List Byte) :
    (∀ k ∈ files, ∀ i, NewBit act ((flags k).getLsbD i = true) (Named first i) ↔
        NewBit act ((flags k).getLsbD i = true) (Named (first ++ rest) i)) ↔
      ∀ c ∈ rest, c ∉ first → ∀ i, bit c = some i → Redundant act flags files i := by
  constructor
  · intro hsame c hc hnew i hi
    refine (redundant_iff hne i).2 fun k hk => ?_
    have hall : Named (first ++ rest) i := ⟨c, List.mem_append_right first hc, hi⟩
    have hnone : ¬ Named first i := by
      rintro ⟨c', hc', hi'⟩
      exact hnew (bit_inj hi hi' ▸ hc')
    have hk' := hsame k hk i
    rwa [eq_true hall, eq_false hnone] at hk'
  · intro hredundant k hk i
    by_cases hfirst : Named first i
    · have hall : Named (first ++ rest) i := by
        obtain ⟨c, hc, hi⟩ := hfirst
        exact ⟨c, List.mem_append_left rest hc, hi⟩
      rw [eq_true hfirst, eq_true hall]
    · by_cases hall : Named (first ++ rest) i
      · obtain ⟨c, hc, hi⟩ := id hall
        have hnew : c ∉ first := fun hmem => hfirst ⟨c, hmem, hi⟩
        have hrest := (List.mem_append.1 hc).resolve_left hnew
        rw [eq_false hfirst, eq_true hall]
        exact (redundant_iff hne i).1 (hredundant c hrest hnew i hi) k hk
      · rw [eq_false hfirst, eq_false hall]

/-- **The whole string.** For every sign, every string of letters and all files: a string with a bad letter is refused
and otherwise all its letters are applied, if and only if there are no files, a bad letter is among the first 19, or
no letter is bad and every letter that is behind the 19th and not among them changes nothing. -/
theorem applies_all_letters {buf s : List Byte} (hbuf : buf.length = 20) (h0 : 0 ∉ s) (key : N → K)
    (flags : K → BitVec 32) (act : Act) (paths : List N) :
    AppliesAll key flags buf act s paths ↔
      paths = [] ∨ (∃ c ∈ s.take 19, bit c = none) ∨
        (∀ c ∈ s, bit c ≠ none) ∧ ∀ c ∈ s.drop 19, c ∉ s.take 19 → ∀ i, bit c = some i →
          Redundant act flags (paths.map key) i := by
  rcases eq_or_ne paths [] with rfl | hne
  · refine iff_of_true ⟨fun _ => rfl, fun _ k i => ?_⟩ (.inl rfl)
    simp [chattrMain]
  · rw [or_iff_right hne]
    by_cases hbad : ∃ c ∈ s.take 19, bit c = none
    · -- refused
      have hfinal : chattrMain key flags buf (act.sign :: s) paths = (flags, false) := by
        rw [chattrMain_eq hbuf h0 key flags act hne, loop_refused hbad key act flags hne]
      refine iff_of_true ⟨fun _ => hfinal, fun hgood => ?_⟩ (.inl hbad)
      obtain ⟨c, hc, hnone⟩ := hbad
      exact absurd hnone (hgood c (List.mem_of_mem_take hc))
    · have hfirst : ∀ c ∈ s.take 19, bit c ≠ none := fun c hc hnone => hbad ⟨c, hc, hnone⟩
      have hfinal := finalFlags hbuf h0 hfirst key flags act hne
      have hmap : paths.map key ≠ [] := by simpa using hne
      rw [or_iff_right hbad, ← newBits_iff hmap, List.take_append_drop]
      constructor
      · rintro ⟨hrefused, happlied⟩
        have hgood : ∀ c ∈ s, bit c ≠ none := by
          intro c hc hnone
          have hfail := congrArg Prod.snd (hrefused ⟨c, hc, hnone⟩)
          rw [final_success hbuf h0 hfirst key flags act hne] at hfail
          cases hfail
        refine ⟨hgood, fun k hk i => ?_⟩
        have hsame := (hfinal k i).symm.trans (happlied hgood k i)
        rwa [if_pos hk, if_pos hk] at hsame
      · rintro ⟨hgood, hsame⟩
        refine ⟨fun ⟨c, hc, hnone⟩ => absurd hnone (hgood c hc), fun _ k i => ?_⟩
        rw [hfinal k i]
        split_ifs with hk
        · exact hsame k hk i
        · rfl

/-- `-aa` for a file with two flags -/
theorem applies_all_letters_aa :
    ((chattrMain id (fun _ : Unit => 0x24#32) (List.replicate 20 0) [0x2d#8, 0x61#8, 0x61#8] [()]).1 ()).getLsbD 5 ≠
      true := by
  have hbuf : (List.replicate 20 (0 : Byte)).length = 20 := List.length_replicate
  have hletters : (0 : Byte) ∉ [0x61#8, 0x61#8] := by decide
  have hgood : ∀ c ∈ [0x61#8, 0x61#8], bit c ≠ none := by decide
  have hall := (applies_all_letters hbuf hletters id (fun _ : Unit => 0x24#32) .sub [()]).2
    (.inr (.inr ⟨hgood, fun c hc => by cases hc⟩))
  intro hset
  have hbit := (hall.2 hgood () 5).1 hset
  rw [if_pos (by simp)] at hbit
  exact hbit.2 ⟨0x61#8, by simp, rfl⟩

/-- 19 times `a` and then `c`: the last letter is ignored -/
theorem not_applies_all_letters :
    ¬ ∀ (key : Unit → Unit) (flags : Unit → BitVec 32) (buf : List Byte) (act : Act) (s : List Byte)
      (paths : List Unit), buf.length = 20 → 0 ∉ s → AppliesAll key flags buf act s paths := by
  intro h
  have hbuf : (List.replicate 20 (0 : Byte)).length = 20 := List.length_replicate
  have hletters : (0 : Byte) ∉ List.replicate 19 0x61#8 ++ [0x63#8] := by decide
  have hall := h id (fun _ => 0#32) _ .add _ [()] hbuf hletters
  have hset := (hall.2 (by decide) () 2).2 (by
    rw [if_pos (by simp)]
    exact .inr ⟨0x63#8, by simp, rfl⟩)
  exact absurd hset (by decide)

end OsPractice.Chattr
