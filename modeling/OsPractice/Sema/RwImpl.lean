/-
What the two reader/writer locks have in common: four functions over the lock's fields, each with its own program
points. `RwFunctions.impl` packs them into a lock implementation for `LockClient`; `RwStep` is what a step can be, by
function (`rw_step`).
-/
import OsPractice.Core.LockClient

namespace OsPractice.RwImpl

open Interleave LockClient

inductive Mode where
  | read
  | write
  deriving DecidableEq, Repr

/-- a point inside one of the two acquire functions -/
inductive Acquire (AR AW : Type) where
  | read (p : AR)
  | write (p : AW)
  deriving DecidableEq, Repr

/-- a point inside one of the two release functions -/
inductive Release (RR RW : Type) where
  | read (p : RR)
  | write (p : RW)
  deriving DecidableEq, Repr

/-- the code of the four functions; `none` as the next point is the return -/
structure RwFunctions (S AR RR AW RW : Type) where
  init : S
  acquireReadlock : S → AR → Option (S × Option AR)
  releaseReadlock : S → RR → Option (S × Option RR)
  acquireWritelock : S → AW → Option (S × Option AW)
  releaseWritelock : S → RW → Option (S × Option RW)
  acquireReadlockEntry : AR
  releaseReadlockEntry : RR
  acquireWritelockEntry : AW
  releaseWritelockEntry : RW

variable {S AR RR AW RW P Q : Type}

/-- the next point of a function seen as a point of the lock, the return as the mode -/
def lift (f : P → Q) (m : Mode) (r : S × Option P) : S × (Q ⊕ Mode) :=
  (r.1, match r.2 with
    | some p => .inl (f p)
    | none => .inr m)

def RwFunctions.impl (F : RwFunctions S AR RR AW RW) : Impl Mode Unit S (Acquire AR AW) (Release RR RW) where
  init := F.init
  acquire
    | .read => .read F.acquireReadlockEntry
    | .write => .write F.acquireWritelockEntry
  release
    | .read => .read F.releaseReadlockEntry
    | .write => .write F.releaseWritelockEntry
  acquireCode _ x
    | .read p => (F.acquireReadlock x p).map (lift .read .read)
    | .write p => (F.acquireWritelock x p).map (lift .write .write)
  releaseCode _ x
    | .read p => (F.releaseReadlock x p).map (lift .read .read)
    | .write p => (F.releaseWritelock x p).map (lift .write .write)

/-- the phase after a step inside an acquire function -/
def acquireNext (f : P → Acquire AR AW) (m : Mode) : Option P → Phase Mode (Acquire AR AW) (Release RR RW)
  | some p => .acquiring (f p)
  | none => .holding m

/-- the phase after a step inside a release function -/
def releaseNext (f : P → Release RR RW) : Option P → Phase Mode (Acquire AR AW) (Release RR RW)
  | some p => .releasing (f p)
  | none => .out

inductive RwStep (F : RwFunctions S AR RR AW RW) :
    S → Phase Mode (Acquire AR AW) (Release RR RW) → S → Phase Mode (Acquire AR AW) (Release RR RW) → Prop where
  | call (x : S) (m : Mode) : RwStep F x .out x (.acquiring (F.impl.acquire m))
  | acquireRead {x x' p q} (h : F.acquireReadlock x p = some (x', q)) :
      RwStep F x (.acquiring (.read p)) x' (acquireNext .read .read q)
  | acquireWrite {x x' p q} (h : F.acquireWritelock x p = some (x', q)) :
      RwStep F x (.acquiring (.write p)) x' (acquireNext .write .write q)
  | release (x : S) (m : Mode) : RwStep F x (.holding m) x (.releasing (F.impl.release m))
  | releaseRead {x x' p q} (h : F.releaseReadlock x p = some (x', q)) :
      RwStep F x (.releasing (.read p)) x' (releaseNext .read q)
  | releaseWrite {x x' p q} (h : F.releaseWritelock x p = some (x', q)) :
      RwStep F x (.releasing (.write p)) x' (releaseNext .write q)

theorem lift_inl {f : P → Q} {m : Mode} {r : S × Option P} {x : S} {q : Q} (h : lift f m r = (x, .inl q)) :
    ∃ p, r = (x, some p) ∧ f p = q := by
  obtain ⟨x', o⟩ := r
  cases o <;> simp_all [lift]

theorem lift_inr {f : P → Q} {m m' : Mode} {r : S × Option P} {x : S} (h : lift f m r = (x, .inr m')) :
    r = (x, none) ∧ m = m' := by
  obtain ⟨x', o⟩ := r
  cases o <;> simp_all [lift]

theorem rw_step {F : RwFunctions S AR RR AW RW} {x x' : S} {φ φ' : Phase Mode (Acquire AR AW) (Release RR RW)}
    (h : PhaseStep F.impl x φ x' φ') : RwStep F x φ x' φ' := by
  cases h with
  | call _ m => exact .call _ m
  | release _ m => exact .release _ m
  | @acquiring _ _ p _ p' h =>
    cases p with
    | read p =>
      obtain ⟨r, h1, h2⟩ := Option.map_eq_some_iff.1 h
      obtain ⟨q, rfl, rfl⟩ := lift_inl h2
      exact .acquireRead h1
    | write p =>
      obtain ⟨r, h1, h2⟩ := Option.map_eq_some_iff.1 h
      obtain ⟨q, rfl, rfl⟩ := lift_inl h2
      exact .acquireWrite h1
  | @acquired _ _ p _ m h =>
    cases p with
    | read p =>
      obtain ⟨r, h1, h2⟩ := Option.map_eq_some_iff.1 h
      obtain ⟨rfl, rfl⟩ := lift_inr h2
      exact .acquireRead h1
    | write p =>
      obtain ⟨r, h1, h2⟩ := Option.map_eq_some_iff.1 h
      obtain ⟨rfl, rfl⟩ := lift_inr h2
      exact .acquireWrite h1
  | @releasing _ _ p _ p' h =>
    cases p with
    | read p =>
      obtain ⟨r, h1, h2⟩ := Option.map_eq_some_iff.1 h
      obtain ⟨q, rfl, rfl⟩ := lift_inl h2
      exact .releaseRead h1
    | write p =>
      obtain ⟨r, h1, h2⟩ := Option.map_eq_some_iff.1 h
      obtain ⟨q, rfl, rfl⟩ := lift_inl h2
      exact .releaseWrite h1
  | @released _ _ p _ m h =>
    cases p with
    | read p =>
      obtain ⟨r, h1, h2⟩ := Option.map_eq_some_iff.1 h
      obtain ⟨rfl, rfl⟩ := lift_inr h2
      exact .releaseRead h1
    | write p =>
      obtain ⟨r, h1, h2⟩ := Option.map_eq_some_iff.1 h
      obtain ⟨rfl, rfl⟩ := lift_inr h2
      exact .releaseWrite h1

/-! ## The mode of a point -/

def acquireMode : Acquire AR AW → Mode
  | .read _ => .read
  | .write _ => .write

def releaseMode : Release RR RW → Mode
  | .read _ => .read
  | .write _ => .write

theorem acquireMode_next {F : RwFunctions S AR RR AW RW} {x x' : S} {p p' : Acquire AR AW}
    (h : F.impl.acquireCode () x p = some (x', .inl p')) : acquireMode p' = acquireMode p := by
  cases p with
  | read p =>
    obtain ⟨y, -, h2⟩ := Option.map_eq_some_iff.1 h
    obtain ⟨q, -, rfl⟩ := lift_inl h2
    rfl
  | write p =>
    obtain ⟨y, -, h2⟩ := Option.map_eq_some_iff.1 h
    obtain ⟨q, -, rfl⟩ := lift_inl h2
    rfl

theorem acquireMode_return {F : RwFunctions S AR RR AW RW} {x x' : S} {p : Acquire AR AW} {m : Mode}
    (h : F.impl.acquireCode () x p = some (x', .inr m)) : m = acquireMode p := by
  cases p with
  | read p =>
    obtain ⟨y, -, h2⟩ := Option.map_eq_some_iff.1 h
    exact (lift_inr h2).2.symm
  | write p =>
    obtain ⟨y, -, h2⟩ := Option.map_eq_some_iff.1 h
    exact (lift_inr h2).2.symm

theorem releaseMode_next {F : RwFunctions S AR RR AW RW} {x x' : S} {p p' : Release RR RW}
    (h : F.impl.releaseCode () x p = some (x', .inl p')) : releaseMode p' = releaseMode p := by
  cases p with
  | read p =>
    obtain ⟨y, -, h2⟩ := Option.map_eq_some_iff.1 h
    obtain ⟨q, -, rfl⟩ := lift_inl h2
    rfl
  | write p =>
    obtain ⟨y, -, h2⟩ := Option.map_eq_some_iff.1 h
    obtain ⟨q, -, rfl⟩ := lift_inl h2
    rfl

theorem releaseMode_return {F : RwFunctions S AR RR AW RW} {x x' : S} {p : Release RR RW} {m : Mode}
    (h : F.impl.releaseCode () x p = some (x', .inr m)) : m = releaseMode p := by
  cases p with
  | read p =>
    obtain ⟨y, -, h2⟩ := Option.map_eq_some_iff.1 h
    exact (lift_inr h2).2.symm
  | write p =>
    obtain ⟨y, -, h2⟩ := Option.map_eq_some_iff.1 h
    exact (lift_inr h2).2.symm

/-! ## A reader running alone -/

theorem acquireRead_more {F : RwFunctions S AR RR AW RW} {x x' x'' : S} {p p' : AR} {q : Acquire AR AW ⊕ Mode}
    (h : F.acquireReadlock x p = some (x', some p')) (hs : Solo F.impl.acquireCode x' (.read p') x'' q) :
    Solo F.impl.acquireCode x (.read p) x'' q :=
  .more (c := ()) (by simp [RwFunctions.impl, h, lift]) hs

theorem acquireRead_return {F : RwFunctions S AR RR AW RW} {x x' : S} {p : AR}
    (h : F.acquireReadlock x p = some (x', none)) : Solo F.impl.acquireCode x (.read p) x' (.inr .read) :=
  .one (c := ()) (by simp [RwFunctions.impl, h, lift])

theorem releaseRead_next {F : RwFunctions S AR RR AW RW} {x x' : S} {p p' : RR}
    (h : F.releaseReadlock x p = some (x', some p')) : Solo F.impl.releaseCode x (.read p) x' (.inl (.read p')) :=
  .one (c := ()) (by simp [RwFunctions.impl, h, lift])

theorem releaseRead_return {F : RwFunctions S AR RR AW RW} {x x' : S} {p : RR}
    (h : F.releaseReadlock x p = some (x', none)) : Solo F.impl.releaseCode x (.read p) x' (.inr .read) :=
  .one (c := ()) (by simp [RwFunctions.impl, h, lift])

/-! ## Exclusion as a property of an implementation -/

/-- no run of any client has a writer, from the end of its acquire to the end of its release, together with another
holder -/
def Excludes (F : RwFunctions S AR RR AW RW) : Prop :=
  ∀ {T : Type} [Fintype T] [DecidableEq T] {D B X : Type} (K : Client Mode D B X) (d : D) (b : T → B)
    {as : List (T × Unit)} {tr : List (Event T Mode X)}
    {s : St T (Shared S D) (Loc Mode (Acquire AR AW) (Release RR RW) B)},
    Run (prog F.impl K) (start F.impl d b) as tr s → ∀ t u, t ≠ u →
      (phases s t = .holding .write ∨ ∃ p, phases s t = .releasing (.write p)) → ∀ m, phases s u ≠ .holding m

end OsPractice.RwImpl
