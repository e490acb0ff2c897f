/-
Runs of `atomic_append` (`fileio/atomic_append.c`) that share a file. Each goes to the end of the file and writes one
byte, as often as it is told to. With `O_APPEND` a write goes to the end in the same step; with a fourth argument it
goes to where the end was at the `lseek`, and may overwrite what another run has written since.

Each `lseek` and each `write` is one step, and none fails. There are any number of runs, with any numbers of bytes. An
offset is a number without a bound.

A write never makes the file shorter, and makes it longer by one byte at most. What a run has yet to write is `owing`.

Results:
- `inv_step`: what a step keeps of the bounds;
- `final_length`: the length of the file once all runs have ended.
-/
import OsPractice.Core.Interleave
import OsPractice.Core.Bytes

namespace OsPractice.AtomicAppend

open Interleave Bytes

/-! ## The program -/

structure Flags where
  wronly : Bool
  append : Bool
  creat : Bool
  deriving DecidableEq, Repr

/-- the arguments of a run: their number, and `num-bytes` as `atoll` reads it -/
structure Args where
  argc : ℕ
  numBytes : ℕ
  /-- with any other number it ends before it has opened the file -/
  usage : argc = 3 ∨ argc = 4
  deriving DecidableEq

/-- a fourth argument toggles `O_APPEND` -/
def flags (args : Args) : Flags :=
  let flags : Flags := ⟨true, true, true⟩
  if args.argc = 4 then { flags with append := !flags.append } else flags

inductive Pc where
  | test
  | lseek
  | write
  | close
  | ended
  deriving DecidableEq, Repr

structure Loc where
  pc : Pc
  flags : Flags
  /-- `n_bytes_to_add` -/
  left : ℕ
  /-- the offset of `fd` -/
  offset : ℕ
  deriving DecidableEq, Repr

/-- `byte`: the string has its NUL only -/
def byte : List Byte := [0]

/-- the shared state is the file -/
def prog {T : Type} : Prog T Unit (List Byte) Loc Unit := fun _ _ file l =>
  match l.pc with
  | .test =>
    -- the counter wraps around at the end and is not read again
    if l.left = 0 then some (file, { l with pc := .close }, [])
    else some (file, { l with pc := .lseek, left := l.left - 1 }, [])
  | .lseek => some (file, { l with pc := .write, offset := file.length }, [])
  | .write =>
    let offset := if l.flags.append then file.length else l.offset
    some (writeAt file offset byte, { l with pc := .test, offset := offset + byte.length }, [])
  | .close => some (file, { l with pc := .ended }, [])
  | .ended => none

/-- all runs have opened the file -/
def start {T : Type} (args : T → Args) (file : List Byte) : St T (List Byte) Loc :=
  ⟨file, fun t => ⟨.test, flags (args t), (args t).numBytes, 0⟩⟩

/-! ## The length of the file -/

theorem append_iff (args : Args) : (flags args).append = true ↔ args.argc = 3 := by
  rcases args.usage with h | h <;> simp [flags, h]

theorem writeAt_length (file : List Byte) (offset : ℕ) :
    (writeAt file offset byte).length = max file.length (offset + 1) := by
  simp only [writeAt, byte, List.length_append, List.length_take, List.length_replicate, List.length_drop,
    List.length_cons, List.length_nil]
  omega

/-- the bytes that a run has yet to write -/
def owing (l : Loc) : ℕ :=
  match l.pc with
  | .lseek | .write => l.left + 1
  | _ => l.left

/-- as `owing`, for the runs with `O_APPEND` -/
def owingAppend (l : Loc) : ℕ := if l.flags.append then owing l else 0

/-- a run of the others has, after its `lseek`, an offset that lies behind all that it has written -/
def Behind (base len : ℕ) (args : Args) (l : Loc) : Prop :=
  base + args.numBytes ≤ len + owing l ∧
    (l.pc = .write → l.offset ≤ len ∧ base + args.numBytes ≤ l.offset + owing l)

variable {T : Type} [Fintype T] [DecidableEq T]

/-- the bytes that the runs without a fourth argument write -/
def appended (args : T → Args) : ℕ := ∑ t with (args t).argc = 3, (args t).numBytes

/-- the most that one of the others writes -/
def largest (args : T → Args) : ℕ := (Finset.univ.filter fun t => (args t).argc = 4).sup fun t => (args t).numBytes

/-- `base` is the length of the file at the start -/
structure Inv (args : T → Args) (base : ℕ) (s : St T (List Byte) Loc) : Prop where
  mode : ∀ t, (s.loc t).flags = flags (args t)
  upper : s.sh.length + total owing s.loc ≤ base + ∑ t, (args t).numBytes
  append : base + appended args ≤ s.sh.length + total owingAppend s.loc
  behind : ∀ t, ¬ (flags (args t)).append → Behind base s.sh.length (args t) (s.loc t)
  ended : ∀ t, (s.loc t).pc = .close ∨ (s.loc t).pc = .ended → (s.loc t).left = 0

variable {args : T → Args} {base : ℕ} {s : St T (List Byte) Loc} {t : T} {c : Unit} {file : List Byte} {l : Loc}
  {es : List Unit}

omit [DecidableEq T] in
theorem Inv.start (args : T → Args) (file : List Byte) : Inv args file.length (start args file) where
  mode _ := rfl
  upper := by simp [total, AtomicAppend.start, owing]
  append := by
    have hsum : total owingAppend (AtomicAppend.start args file).loc = appended args := by
      simp only [total, AtomicAppend.start, owingAppend, owing, appended, Finset.sum_filter, append_iff]
    rw [hsum]
    rfl
  behind t _ := ⟨le_rfl, fun h => by cases h⟩
  ended t h := by rcases h with h | h <;> cases h

/-- what a step has to do to keep the bounds -/
theorem Inv.move (h : Inv args base s) (file : List Byte) (hmode : l.flags = (s.loc t).flags)
    (hgrow : s.sh.length ≤ file.length)
    (hupper : file.length + owing l ≤ s.sh.length + owing (s.loc t))
    (happend : (s.loc t).flags.append → s.sh.length + owing (s.loc t) ≤ file.length + owing l)
    (hbehind : ¬ (s.loc t).flags.append → Behind base file.length (args t) l)
    (hended : l.pc = .close ∨ l.pc = .ended → l.left = 0) : Inv args base (s.move t file l) where
  mode := s.forall_move (p := fun t l => l.flags = flags (args t)) file (hmode.trans (h.mode t)) fun u _ => h.mode u
  upper := by
    have hsum := total_update owing s.loc t l
    have hold := h.upper
    rw [St.move_sh, St.move_loc]
    omega
  append := by
    have hsum := total_update owingAppend s.loc t l
    have hold := h.append
    rw [St.move_sh, St.move_loc]
    by_cases ha : (s.loc t).flags.append = true
    · have := happend ha
      simp only [owingAppend, hmode, ha, if_true] at hsum
      omega
    · simp only [owingAppend, hmode, ha, Bool.false_eq_true, if_false] at hsum
      omega
  behind := by
    refine s.forall_move (p := fun t l => ¬ (flags (args t)).append → Behind base file.length (args t) l) file ?_ ?_
    · intro ha
      exact hbehind (by rwa [h.mode t])
    · intro u _ ha
      obtain ⟨h1, h2⟩ := h.behind u ha
      exact ⟨by omega, fun hpc => ⟨by have := (h2 hpc).1; omega, (h2 hpc).2⟩⟩
  ended := s.forall_move (p := fun _ l => l.pc = .close ∨ l.pc = .ended → l.left = 0) file hended fun u _ => h.ended u

theorem inv_step (h : Inv args base s) (hs : prog t c s.sh (s.loc t) = some (file, l, es)) :
    Inv args base (s.move t file l) := by
  have hb := h.behind t
  have hended := h.ended t
  rw [← h.mode t] at hb
  have hmove := h.move file (t := t) (l := l)
  generalize hl : s.loc t = l₀ at hs hb hended hmove
  obtain ⟨pc, fl, left, offset⟩ := l₀
  cases pc with
  | test =>
    simp only [prog] at hs
    split_ifs at hs with hleft
    · cases hs
      exact hmove rfl le_rfl le_rfl (fun _ => le_rfl) (fun ha => ⟨(hb ha).1, fun hpc => by cases hpc⟩) fun _ => hleft
    · cases hs
      have howing : owing ⟨.lseek, fl, left - 1, offset⟩ = owing ⟨.test, fl, left, offset⟩ :=
        Nat.sub_add_cancel (Nat.pos_of_ne_zero hleft)
      refine hmove rfl le_rfl (by rw [howing]) (fun _ => by rw [howing]) (fun ha => ?_) fun hpc => ?_
      · exact ⟨by rw [howing]; exact (hb ha).1, fun hpc => by cases hpc⟩
      · rcases hpc with hpc | hpc <;> cases hpc
  | lseek =>
    cases hs
    refine hmove rfl le_rfl le_rfl (fun _ => le_rfl) (fun ha => ⟨(hb ha).1, fun _ => ⟨le_rfl, (hb ha).1⟩⟩) fun hpc => ?_
    rcases hpc with hpc | hpc <;> cases hpc
  | write =>
    have hfile : file = writeAt s.sh (if fl.append then s.sh.length else offset) byte := by cases hs; rfl
    have hl' : l = ⟨.test, fl, left, (if fl.append then s.sh.length else offset) + byte.length⟩ := by cases hs; rfl
    have howing : owing l + 1 = left + 1 := by rw [hl']; rfl
    have hpc : l.pc = .test := by rw [hl']
    have hlen : file.length = max s.sh.length ((if fl.append then s.sh.length else offset) + 1) := by
      rw [hfile, writeAt_length]
    refine hmove (by rw [hl']) (by omega) ?_ (fun ha => ?_) (fun ha => ⟨?_, by simp [hpc]⟩) (by simp [hpc])
    · change file.length + owing l ≤ s.sh.length + (left + 1)
      by_cases ha : fl.append = true
      · rw [if_pos ha] at hlen
        omega
      · have hoffset : offset ≤ s.sh.length := ((hb ha).2 rfl).1
        rw [if_neg ha] at hlen
        omega
    · -- the write goes to the end
      change s.sh.length + (left + 1) ≤ file.length + owing l
      rw [if_pos ha] at hlen
      omega
    · -- the write goes to where the end was, which lies behind all that the run has written
      have hbehind : base + (args t).numBytes ≤ offset + (left + 1) := ((hb ha).2 rfl).2
      rw [if_neg ha] at hlen
      omega
  | close =>
    cases hs
    exact hmove rfl le_rfl le_rfl (fun _ => le_rfl) (fun ha => ⟨(hb ha).1, fun hpc => by cases hpc⟩) fun _ =>
      hended (.inl rfl)
  | ended => cases hs

theorem run_inv (args : T → Args) (file : List Byte) {as : List (T × Unit)} {tr : List Unit}
    (h : Run prog (AtomicAppend.start args file) as tr s) : Inv args file.length s :=
  h.inv (Inv.start args file) fun _ _ _ _ _ _ hi hs => inv_step hi hs

/-- **The length of the file.** For any number of runs, with and without a fourth argument, with any numbers of bytes,
and every order of their steps: once all have ended, the file has grown by at least the bytes of the runs without one,
and at least by those of each of the others; and by no more than the bytes of all runs. If none has one it has grown
by all bytes. -/
theorem final_length (args : T → Args) (file : List Byte) {as : List (T × Unit)} {tr : List Unit}
    {s : St T (List Byte) Loc} (h : Run prog (start args file) as tr s) (hend : ∀ t, (s.loc t).pc = .ended) :
    (file.length + max (appended args) (largest args) ≤ s.sh.length ∧
      s.sh.length ≤ file.length + ∑ t, (args t).numBytes) ∧
    ((∀ t, (args t).argc = 3) → s.sh.length = file.length + ∑ t, (args t).numBytes) := by
  have hi := run_inv args file h
  have howing : ∀ t, owing (s.loc t) = 0 := by
    intro t
    simp only [owing, hend t]
    exact hi.ended t (.inr (hend t))
  have howingAppend : ∀ t, owingAppend (s.loc t) = 0 := fun t => by simp [owingAppend, howing t]
  have hupper : s.sh.length ≤ file.length + ∑ t, (args t).numBytes :=
    calc s.sh.length = s.sh.length + total owing s.loc := by rw [total_eq_zero howing, Nat.add_zero]
      _ ≤ file.length + ∑ t, (args t).numBytes := hi.upper
  have happend : file.length + appended args ≤ s.sh.length :=
    calc file.length + appended args ≤ s.sh.length + total owingAppend s.loc := hi.append
      _ = s.sh.length := by rw [total_eq_zero howingAppend, Nat.add_zero]
  have hlargest : largest args ≤ s.sh.length - file.length := by
    refine Finset.sup_le fun t ht => Nat.le_sub_of_add_le' ?_
    have hfour := (Finset.mem_filter.1 ht).2
    have happ : ¬ (flags (args t)).append = true := by
      rw [append_iff, hfour]
      decide
    calc file.length + (args t).numBytes
        ≤ s.sh.length + owing (s.loc t) := (hi.behind t happ).1
      _ = s.sh.length := by rw [howing t, Nat.add_zero]
  have hmax : max (appended args) (largest args) ≤ s.sh.length - file.length :=
    max_le (Nat.le_sub_of_add_le' happend) hlargest
  refine ⟨⟨by omega, hupper⟩, fun hall => ?_⟩
  have hsum : appended args = ∑ t, (args t).numBytes := by simp [appended, hall]
  exact le_antisymm hupper (hsum ▸ happend)

/-- two runs with one byte each; the one without `O_APPEND` overwrites the byte of the other -/
theorem final_length_overwritten :
    ∃ as tr s, Run prog (start (fun t : Fin 2 => if t = 0 then ⟨3, 1, .inl rfl⟩ else ⟨4, 1, .inr rfl⟩) [7]) as tr s ∧
      s.sh.length = 2 ∧ 1 + max 1 1 ≤ s.sh.length ∧ s.sh.length ≤ 1 + 2 := by
  obtain ⟨s, tr, h, hlen, hend⟩ := exec_any_run prog
    (start (fun t : Fin 2 => if t = 0 then ⟨3, 1, .inl rfl⟩ else ⟨4, 1, .inr rfl⟩) [7])
    (([1, 1, 0, 0, 0, 0, 0, 1, 1, 1] : List (Fin 2)).map fun t => (t, ()))
    (fun s _ => s.sh.length = 2 ∧ ∀ t, (s.loc t).pc = .ended) (by decide +kernel)
  obtain ⟨⟨h1, h2⟩, -⟩ := final_length _ _ h hend
  exact ⟨_, tr, s, h, hlen, h1, h2⟩

end OsPractice.AtomicAppend
