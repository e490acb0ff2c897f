/-
Files that are opened by name and written to. Library: nothing here names a program.

A name leads to a file (`key`); several names may lead to one. A file has its bytes, or does not exist. Every call of
`openFile` makes a description of its own, with an offset; the `n`-th one has the number `n`. A write goes to the offset
of its description or, in append mode, to the end of the file. Writes are complete.

Results: `writeFile_eq`: what a write does; `writeAt_end`, `writeAt_again`: the bytes of a file after it.
-/
import OsPractice.Core.Bytes

namespace OsPractice.OpenFiles

open Bytes

/-- an open file description, of a file that is open for writing -/
structure Desc (K : Type) where
  file : K
  append : Bool
  offset : ℕ
  deriving DecidableEq, Repr

structure Files (K : Type) where
  content : K → Option (List Byte)
  /-- `none` when it has been closed -/
  descs : List (Option (Desc K))

/-- `O_WRONLY | O_CREAT` and these -/
structure Flags where
  append : Bool
  trunc : Bool
  deriving DecidableEq, Repr

variable {K : Type} [DecidableEq K]

/-- the bytes of a file, none if it does not exist -/
def Files.bytes (fs : Files K) (k : K) : List Byte := (fs.content k).getD []

/-- `open`: the number of the description -/
def openFile (flags : Flags) (k : K) (fs : Files K) : Files K × ℕ :=
  (⟨Function.update fs.content k (some (if flags.trunc then [] else fs.bytes k)),
    fs.descs ++ [some ⟨k, flags.append, 0⟩]⟩, fs.descs.length)

/-- `write`; `none` when there is no such description -/
def writeFile (fd : ℕ) (bs : List Byte) (fs : Files K) : Option (Files K) :=
  match fs.descs[fd]? with
  | some (some d) =>
    let offset := if d.append then (fs.bytes d.file).length else d.offset
    some ⟨Function.update fs.content d.file (some (writeAt (fs.bytes d.file) offset bs)),
      fs.descs.set fd (some { d with offset := offset + bs.length })⟩
  | _ => none

omit [DecidableEq K] in
/-- `close` -/
def closeFile (fd : ℕ) (fs : Files K) : Files K := { fs with descs := fs.descs.set fd none }

theorem writeFile_eq {fs : Files K} {fd : ℕ} {d : Desc K} (h : fs.descs[fd]? = some (some d)) (bs : List Byte) :
    writeFile fd bs fs =
      some ⟨Function.update fs.content d.file
          (some (writeAt (fs.bytes d.file) (if d.append then (fs.bytes d.file).length else d.offset) bs)),
        fs.descs.set fd
          (some { d with offset := (if d.append then (fs.bytes d.file).length else d.offset) + bs.length })⟩ := by
  rw [writeFile, h]

/-- a write at the end of a file -/
theorem writeAt_end (old bs : List Byte) : writeAt old old.length bs = old ++ bs := by
  simp [writeAt]

/-- the same write once more -/
theorem writeAt_again (old bs : List Byte) : writeAt (old ++ bs) old.length bs = old ++ bs := by
  simp [writeAt]

end OsPractice.OpenFiles
