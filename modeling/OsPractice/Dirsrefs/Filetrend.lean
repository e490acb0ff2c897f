/-
The statistics of the file types in a tree (`dirsrefs/filetrend.c`). The types are told apart by a chain of bit tests,
but they are numbers: sockets and symbolic links pass the test for regular files, and block devices the one for
directories.

The entries are those that `nftw` visits, in its order. The counters are words of 32 bits, read as `int`. Of what is
printed, the percentages are left out.

Results:
- `incstats_eq`: the counter that an entry increments;
- `countAll_eq`: the counters after any entries;
- `all_countAll`: their sum as the program computes it;
- `echostatsmsgs_none`: when the program says that there are no files;
- `counts_exact`: when the counters are right.
-/
import OsPractice.Core.Bytes
import OsPractice.Core.FileAttrs

namespace OsPractice.Filetrend

open Bytes FileAttrs

/-! ## The program -/

structure Stats where
  regulars : BitVec 32
  dirs : BitVec 32
  chardevs : BitVec 32
  blokdevs : BitVec 32
  fifodevs : BitVec 32
  sockets : BitVec 32
  symlinks : BitVec 32
deriving DecidableEq, Repr

def init : Stats := ⟨0, 0, 0, 0, 0, 0, 0⟩

def incstats (s : Stats) (mode : BitVec 32) : Stats :=
  if mode &&& S_IFREG ≠ 0 then { s with regulars := s.regulars + 1 }
  else if mode &&& S_IFDIR ≠ 0 then { s with dirs := s.dirs + 1 }
  else if mode &&& S_IFCHR ≠ 0 then { s with chardevs := s.chardevs + 1 }
  else if mode &&& S_IFBLK ≠ 0 then { s with blokdevs := s.blokdevs + 1 }
  else if mode &&& S_IFIFO ≠ 0 then { s with fifodevs := s.fifodevs + 1 }
  else if mode &&& S_IFSOCK ≠ 0 then { s with sockets := s.sockets + 1 }
  else if mode &&& S_IFLNK ≠ 0 then { s with symlinks := s.symlinks + 1 }
  else s

/-- the calls for the entries of a tree -/
def countAll (entries : List Mode) : Stats := (entries.map Mode.st_mode).foldl incstats init

/-- the sum of the counters, an `int` that is turned into a `size_t` -/
def all (s : Stats) : BitVec 64 :=
  (s.regulars + s.dirs + s.chardevs + s.blokdevs + s.fifodevs + s.sockets + s.symlinks).signExtend 64

/-- the lines that are printed; `none` for `no files` -/
def echostatsmsgs (s : Stats) : Option (List (String × ℤ)) :=
  if all s = 0 then none
  else some [("regulars", s.regulars.toInt), ("dirs", s.dirs.toInt), ("chardevs", s.chardevs.toInt),
    ("blokdevs", s.blokdevs.toInt), ("fifodevs", s.fifodevs.toInt), ("sockets", s.sockets.toInt),
    ("symlinks", s.symlinks.toInt)]

/-! ## The counters -/

/-- the counter for a type -/
def Stats.counter (s : Stats) : FileType → BitVec 32
  | .reg => s.regulars
  | .dir => s.dirs
  | .chr => s.chardevs
  | .blk => s.blokdevs
  | .fifo => s.fifodevs
  | .sock => s.sockets
  | .lnk => s.symlinks

/-- the type that an entry is counted as -/
def countedAs : FileType → FileType
  | .sock => .reg
  | .lnk => .reg
  | .blk => .dir
  | t => t

/-- an entry increments one counter, whatever its permissions -/
theorem incstats_eq (s : Stats) (m : Mode) (t : FileType) :
    (incstats s m.st_mode).counter t = s.counter t + if countedAs m.type = t then 1 else 0 := by
  have htest (k : FileType) : m.st_mode &&& k.code = m.type.code &&& k.code :=
    m.st_mode_and_type fun i hi => k.code_low hi
  have hreg := htest .reg
  have hdir := htest .dir
  have hchr := htest .chr
  have hfifo := htest .fifo
  have hblk := htest .blk
  simp only [FileType.code] at hreg hdir hchr hblk hfifo
  rw [incstats, hreg, hdir, hchr, hblk, hfifo]
  cases m.type <;> cases t <;> simp [countedAs, Stats.counter, S_IFREG, S_IFDIR, S_IFCHR, S_IFBLK, S_IFIFO, S_IFSOCK,
    S_IFLNK]

/-- the number of entries that `g` takes for one of a type -/
def countBy (g : FileType → FileType) (entries : List Mode) (t : FileType) : ℕ := entries.countP fun m => g m.type = t

/-- the number of entries of a type -/
def ofType (entries : List Mode) (t : FileType) : ℕ := countBy id entries t

theorem countBy_cons (g : FileType → FileType) (m : Mode) (entries : List Mode) (t : FileType) :
    countBy g (m :: entries) t = countBy g entries t + if g m.type = t then 1 else 0 := by
  simp [countBy, List.countP_cons]

theorem foldl_incstats (entries : List Mode) (s : Stats) (t : FileType) :
    ((entries.map Mode.st_mode).foldl incstats s).counter t =
      s.counter t + BitVec.ofNat 32 (countBy countedAs entries t) := by
  induction entries generalizing s with
  | nil => simp [countBy]
  | cons m entries ih =>
    rw [List.map_cons, List.foldl_cons, ih, incstats_eq, countBy_cons, BitVec.add_assoc, Nat.add_comm, BitVec.ofNat_add]
    split_ifs <;> rfl

/-- the counters after any entries -/
theorem countAll_eq (entries : List Mode) (t : FileType) :
    (countAll entries).counter t = BitVec.ofNat 32 (countBy countedAs entries t) := by
  have hzero : init.counter t = 0#32 := by cases t <;> rfl
  rw [countAll, foldl_incstats, hzero, BitVec.zero_add]

/-- every entry is taken for one type -/
theorem sum_countBy (g : FileType → FileType) (entries : List Mode) :
    countBy g entries .reg + countBy g entries .dir + countBy g entries .chr + countBy g entries .blk +
      countBy g entries .fifo + countBy g entries .sock + countBy g entries .lnk = entries.length := by
  induction entries with
  | nil => rfl
  | cons m entries ih =>
    simp only [countBy_cons, List.length_cons, ← ih]
    cases g m.type <;> simp <;> omega

/-- the program's own sum is that of the entries, modulo `2 ^ 32` -/
theorem all_countAll (entries : List Mode) :
    all (countAll entries) = (BitVec.ofNat 32 entries.length).signExtend 64 := by
  have hcounter (t : FileType) := countAll_eq entries t
  have hreg := hcounter .reg
  have hdir := hcounter .dir
  have hchr := hcounter .chr
  have hblk := hcounter .blk
  have hfifo := hcounter .fifo
  have hsock := hcounter .sock
  have hlnk := hcounter .lnk
  simp only [Stats.counter] at hreg hdir hchr hblk hfifo hsock hlnk
  rw [all, hreg, hdir, hchr, hblk, hfifo, hsock, hlnk, ← sum_countBy countedAs]
  simp only [BitVec.ofNat_add]

/-- `no files` is printed for none, and for a multiple of `2 ^ 32` -/
theorem echostatsmsgs_none (entries : List Mode) :
    echostatsmsgs (countAll entries) = none ↔ 2 ^ 32 ∣ entries.length := by
  have hzero : all (countAll entries) = 0 ↔ entries.length % 2 ^ 32 = 0 := by
    rw [all_countAll]
    constructor
    · intro h
      have hint := congrArg BitVec.toInt h
      rw [BitVec.toInt_signExtend_of_le (by norm_num), BitVec.toInt_eq_toNat_cond] at hint
      simp only [BitVec.toNat_ofNat] at hint
      split_ifs at hint <;> simp at hint <;> omega
    · intro h
      have hz : BitVec.ofNat 32 entries.length = 0 := by
        apply BitVec.eq_of_toNat_eq
        simpa using h
      rw [hz]
      rfl
  rw [Nat.dvd_iff_mod_eq_zero, ← hzero, echostatsmsgs]
  split_ifs <;> simp_all

/-! ## When the counters are right -/

/-- the sum of the numbers that are printed -/
def Stats.sum (s : Stats) : ℤ :=
  s.regulars.toInt + s.dirs.toInt + s.chardevs.toInt + s.blokdevs.toInt + s.fifodevs.toInt + s.sockets.toInt +
    s.symlinks.toInt

/-- every counter is the number of entries of its type, and they sum to the number of entries -/
def Exact (entries : List Mode) : Prop :=
  (∀ t, ((countAll entries).counter t).toInt = ofType entries t) ∧ (countAll entries).sum = entries.length

/-- a type that is taken for another one -/
def Mistaken (t : FileType) : Prop := t = .blk ∨ t = .sock ∨ t = .lnk

theorem countedAs_of_not_mistaken {t : FileType} (h : ¬ Mistaken t) : countedAs t = t := by
  cases t <;> simp_all [Mistaken, countedAs]

/-- nothing is counted as of such a type -/
theorem countBy_mistaken (entries : List Mode) {t : FileType} (h : Mistaken t) : countBy countedAs entries t = 0 := by
  rw [countBy, List.countP_eq_zero]
  intro m _
  rcases h with rfl | rfl | rfl <;> cases m.type <;> simp [countedAs]

/-- **Exact counts.** For every sequence of entries: each counter is the number of entries of its type and the counters
sum to the number of entries, if and only if no entry is a block device, a socket or a symbolic link, and of no type
there are more than an `int` can count. -/
theorem counts_exact (entries : List Mode) :
    Exact entries ↔ (∀ m ∈ entries, ¬ Mistaken m.type) ∧ ∀ t, ofType entries t < 2 ^ 31 := by
  constructor
  · rintro ⟨hcount, -⟩
    constructor
    · intro m hm hmis
      have hzero := hcount m.type
      rw [countAll_eq, countBy_mistaken entries hmis] at hzero
      have hnone : ofType entries m.type = 0 := by simpa using hzero.symm
      rw [ofType, countBy, List.countP_eq_zero] at hnone
      exact hnone m hm (by simp)
    · intro t
      have hlt := BitVec.toInt_lt (x := (countAll entries).counter t)
      rw [hcount] at hlt
      norm_num at hlt
      omega
  · rintro ⟨hright, hfew⟩
    have hall (t : FileType) : ((countAll entries).counter t).toInt = ofType entries t := by
      have hsame : countBy countedAs entries t = ofType entries t := by
        rw [ofType, countBy, countBy]
        refine List.countP_congr fun m hm => ?_
        rw [countedAs_of_not_mistaken (hright m hm), id_eq]
      rw [countAll_eq, hsame, toInt_ofNat (hfew t)]
    refine ⟨hall, ?_⟩
    calc (countAll entries).sum
        = ofType entries .reg + ofType entries .dir + ofType entries .chr + ofType entries .blk +
            ofType entries .fifo + ofType entries .sock + ofType entries .lnk := by
          simp only [← hall]
          rfl
      _ = entries.length := by
          rw [← sum_countBy id entries]
          simp only [ofType, Nat.cast_add]

/-- a tree with a socket in it, which is counted as a regular file -/
theorem not_counts_exact : ¬ ∀ entries : List Mode, Exact entries := by
  intro h
  have hsock := (h [⟨.sock, 0o755#12⟩]).1 .sock
  exact absurd hsock (by decide)

end OsPractice.Filetrend
