/-
A lock and the threads that use it. Library: nothing here names a program.

A lock implementation (`Impl`) is code over the shared fields `S`, for a set of modes `M` (read and write, or just
one): `A` are the program points inside its acquire functions, `R` those inside its release functions. A client
(`Client`) says what a thread does around its calls: which call comes next, and the steps of the section between
acquire and release, over data `D` and client-local state `B`. `prog` puts the two together. A call is one step that
moves the thread to the function's first point; the return is part of the function's last step.

Results:
- `prog_step`: what a step can be, one case for each kind (`Step`);
- `PhaseStep`, `lock_inv`: an invariant of the lock's fields and the threads' phases needs one case for each kind of
  lock step and holds for every client;
- `Solo.run_acquire`, `Solo.run_release`: a thread running alone through a call gives a run of the whole system;
- `canStep_of_out`, `canStep_of_holding`: a thread is blocked only inside a call.
-/
import OsPractice.Core.Interleave

namespace OsPractice.LockClient

open Interleave

variable {T M C S A R Q D B X : Type}

/-- the code of a group of functions: from a point to the next point, or to the return in some mode -/
abbrev Code (M C S Q : Type) := C → S → Q → Option (S × (Q ⊕ M))

structure Impl (M C S A R : Type) where
  init : S
  /-- the first point of the acquire function for a mode -/
  acquire : M → A
  /-- the first point of the release function for a mode -/
  release : M → R
  acquireCode : Code M C S A
  releaseCode : Code M C S R

/-- where a thread is relative to the lock -/
inductive Phase (M A R : Type) where
  | out
  | acquiring (p : A)
  | holding (m : M)
  | releasing (p : R)
  deriving DecidableEq, Repr

/-- what a thread does around its calls -/
structure Client (M D B X : Type) where
  /-- the next call, `none` when the thread has finished -/
  next : D → B → Option (M × B)
  /-- a step of the section, `none` when the section is at its end -/
  body : M → D → B → Option (D × B × List X)
  /-- what follows the return of release -/
  after : B → B

inductive Event (T M X : Type) where
  | acquiring (t : T) (m : M)
  | acquired (t : T) (m : M)
  | releasing (t : T) (m : M)
  | released (t : T) (m : M)
  | client (t : T) (x : X)
  deriving DecidableEq, Repr

structure Shared (S D : Type) where
  lock : S
  data : D

structure Loc (M A R B : Type) where
  phase : Phase M A R
  client : B
  deriving DecidableEq

def prog (I : Impl M C S A R) (K : Client M D B X) : Prog T C (Shared S D) (Loc M A R B) (Event T M X) :=
  fun t c sh l =>
    match l.phase with
    | .out => (K.next sh.data l.client).map fun r => (sh, ⟨.acquiring (I.acquire r.1), r.2⟩, [.acquiring t r.1])
    | .acquiring p => (I.acquireCode c sh.lock p).map fun
      | (x, .inl p') => ({ sh with lock := x }, { l with phase := .acquiring p' }, [])
      | (x, .inr m) => ({ sh with lock := x }, { l with phase := .holding m }, [.acquired t m])
    | .holding m =>
      match K.body m sh.data l.client with
      | some (d, b, xs) => some ({ sh with data := d }, { l with client := b }, xs.map (.client t))
      | none => some (sh, { l with phase := .releasing (I.release m) }, [.releasing t m])
    | .releasing p => (I.releaseCode c sh.lock p).map fun
      | (x, .inl p') => ({ sh with lock := x }, { l with phase := .releasing p' }, [])
      | (x, .inr m) => ({ sh with lock := x }, ⟨.out, K.after l.client⟩, [.released t m])

/-- all threads outside the lock, thread `t` with client state `b t` -/
def start (I : Impl M C S A R) (d : D) (b : T → B) : St T (Shared S D) (Loc M A R B) :=
  ⟨⟨I.init, d⟩, fun t => ⟨.out, b t⟩⟩

/-! ## What a step can be -/

inductive Step (I : Impl M C S A R) (K : Client M D B X) (t : T) :
    Shared S D → Loc M A R B → Shared S D → Loc M A R B → List (Event T M X) → Prop where
  | call {x d b m b'} (h : K.next d b = some (m, b')) :
      Step I K t ⟨x, d⟩ ⟨.out, b⟩ ⟨x, d⟩ ⟨.acquiring (I.acquire m), b'⟩ [.acquiring t m]
  | acquiring {c x x' d b p p'} (h : I.acquireCode c x p = some (x', .inl p')) :
      Step I K t ⟨x, d⟩ ⟨.acquiring p, b⟩ ⟨x', d⟩ ⟨.acquiring p', b⟩ []
  | acquired {c x x' d b p m} (h : I.acquireCode c x p = some (x', .inr m)) :
      Step I K t ⟨x, d⟩ ⟨.acquiring p, b⟩ ⟨x', d⟩ ⟨.holding m, b⟩ [.acquired t m]
  | body {x d d' b b' m xs} (h : K.body m d b = some (d', b', xs)) :
      Step I K t ⟨x, d⟩ ⟨.holding m, b⟩ ⟨x, d'⟩ ⟨.holding m, b'⟩ (xs.map (.client t))
  | release {x d b m} (h : K.body m d b = none) :
      Step I K t ⟨x, d⟩ ⟨.holding m, b⟩ ⟨x, d⟩ ⟨.releasing (I.release m), b⟩ [.releasing t m]
  | releasing {c x x' d b p p'} (h : I.releaseCode c x p = some (x', .inl p')) :
      Step I K t ⟨x, d⟩ ⟨.releasing p, b⟩ ⟨x', d⟩ ⟨.releasing p', b⟩ []
  | released {c x x' d b p m} (h : I.releaseCode c x p = some (x', .inr m)) :
      Step I K t ⟨x, d⟩ ⟨.releasing p, b⟩ ⟨x', d⟩ ⟨.out, K.after b⟩ [.released t m]

theorem prog_step {I : Impl M C S A R} {K : Client M D B X} {t : T} {c : C} {sh sh' : Shared S D}
    {l l' : Loc M A R B} {es : List (Event T M X)} (h : prog I K t c sh l = some (sh', l', es)) :
    Step I K t sh l sh' l' es := by
  obtain ⟨x, d⟩ := sh
  obtain ⟨ph, b⟩ := l
  cases ph with
  | out =>
    obtain ⟨⟨m, b'⟩, hn, he⟩ := Option.map_eq_some_iff.1 h
    cases he
    exact .call hn
  | acquiring p =>
    obtain ⟨⟨x', q⟩, hs, he⟩ := Option.map_eq_some_iff.1 h
    cases q with
    | inl p' => cases he; exact .acquiring hs
    | inr m => cases he; exact .acquired hs
  | holding m =>
    simp only [prog] at h
    split at h
    · rename_i hb
      cases h
      exact .body hb
    · rename_i hb
      cases h
      exact .release hb
  | releasing p =>
    obtain ⟨⟨x', q⟩, hs, he⟩ := Option.map_eq_some_iff.1 h
    cases q with
    | inl p' => cases he; exact .releasing hs
    | inr m => cases he; exact .released hs

/-- what a step does to the lock's fields and the phase of the thread that makes it; the client does not matter -/
inductive PhaseStep (I : Impl M C S A R) : S → Phase M A R → S → Phase M A R → Prop where
  | call (x : S) (m : M) : PhaseStep I x .out x (.acquiring (I.acquire m))
  | acquiring {c x p x' p'} (h : I.acquireCode c x p = some (x', .inl p')) :
      PhaseStep I x (.acquiring p) x' (.acquiring p')
  | acquired {c x p x' m} (h : I.acquireCode c x p = some (x', .inr m)) : PhaseStep I x (.acquiring p) x' (.holding m)
  | release (x : S) (m : M) : PhaseStep I x (.holding m) x (.releasing (I.release m))
  | releasing {c x p x' p'} (h : I.releaseCode c x p = some (x', .inl p')) :
      PhaseStep I x (.releasing p) x' (.releasing p')
  | released {c x p x' m} (h : I.releaseCode c x p = some (x', .inr m)) : PhaseStep I x (.releasing p) x' .out

theorem Step.phase {I : Impl M C S A R} {K : Client M D B X} {t : T} {sh sh' : Shared S D} {l l' : Loc M A R B}
    {es : List (Event T M X)} (h : Step I K t sh l sh' l' es) :
    sh'.lock = sh.lock ∧ l'.phase = l.phase ∨ PhaseStep I sh.lock l.phase sh'.lock l'.phase := by
  cases h with
  | call => exact .inr (.call _ _)
  | acquiring h => exact .inr (.acquiring h)
  | acquired h => exact .inr (.acquired h)
  | body => exact .inl ⟨rfl, rfl⟩
  | release => exact .inr (.release _ _)
  | releasing h => exact .inr (.releasing h)
  | released h => exact .inr (.released h)

/-- the phases of all threads -/
def phases (s : St T (Shared S D) (Loc M A R B)) : T → Phase M A R := fun t => (s.loc t).phase

/-! ## Progress -/

section Progress

variable {I : Impl M C S A R} {K : Client M D B X} {s : St T (Shared S D) (Loc M A R B)} {t : T}

/-- a thread that is outside the lock and has no call left -/
def Finished (K : Client M D B X) (s : St T (Shared S D) (Loc M A R B)) (t : T) : Prop :=
  (s.loc t).phase = .out ∧ K.next s.sh.data (s.loc t).client = none

theorem canStep_of_out [Inhabited C] (h : phases s t = .out) (hf : ¬ Finished K s t) : CanStep (prog I K) s t := by
  refine ⟨default, ?_⟩
  simp only [phases] at h
  have hn : K.next s.sh.data (s.loc t).client ≠ none := fun hn => hf ⟨h, hn⟩
  simp only [prog, h, Option.isSome_map]
  exact Option.isSome_iff_ne_none.2 hn

theorem canStep_of_holding [Inhabited C] {m : M} (h : phases s t = .holding m) : CanStep (prog I K) s t := by
  refine ⟨default, ?_⟩
  simp only [phases] at h
  simp only [prog, h]
  split <;> rfl

theorem canStep_of_acquiring {p : A} (h : phases s t = .acquiring p) {c : C}
    (hc : (I.acquireCode c s.sh.lock p).isSome) : CanStep (prog I K) s t := by
  refine ⟨c, ?_⟩
  simp only [phases] at h
  simpa only [prog, h, Option.isSome_map] using hc

theorem canStep_of_releasing {p : R} (h : phases s t = .releasing p) {c : C}
    (hc : (I.releaseCode c s.sh.lock p).isSome) : CanStep (prog I K) s t := by
  refine ⟨c, ?_⟩
  simp only [phases] at h
  simpa only [prog, h, Option.isSome_map] using hc

end Progress

/-! ## Invariants of the lock -/

variable [DecidableEq T]

theorem phases_move (s : St T (Shared S D) (Loc M A R B)) (t : T) (sh : Shared S D) (l : Loc M A R B) :
    phases (s.move t sh l) = Function.update (phases s) t l.phase := by
  funext u
  by_cases h : u = t
  · subst h; simp [phases]
  · simp [phases, h]

/-- one step of the whole system preserves what the lock's steps preserve -/
theorem step_lock_inv {I : Impl M C S A R} {K : Client M D B X} {J : S → (T → Phase M A R) → Prop}
    (hJ : ∀ x ph t x' φ, J x ph → PhaseStep I x (ph t) x' φ → J x' (Function.update ph t φ))
    {s : St T (Shared S D) (Loc M A R B)} {t : T} {c : C} {sh : Shared S D} {l : Loc M A R B}
    {es : List (Event T M X)} (h : J s.sh.lock (phases s)) (hs : prog I K t c s.sh (s.loc t) = some (sh, l, es)) :
    J sh.lock (phases (s.move t sh l)) := by
  rw [phases_move]
  rcases (prog_step hs).phase with ⟨h1, h2⟩ | h1
  · have h3 : Function.update (phases s) t l.phase = phases s := by
      rw [h2]; exact Function.update_eq_self t (phases s)
    rw [h3, h1]
    exact h
  · exact hJ _ _ _ _ _ h h1

/-- **Invariants of a lock.** A property of the lock's fields and the threads' phases that every lock step preserves
holds in every run of every client. -/
theorem lock_inv {I : Impl M C S A R} {K : Client M D B X} {J : S → (T → Phase M A R) → Prop}
    (h0 : J I.init fun _ => .out)
    (hJ : ∀ x ph t x' φ, J x ph → PhaseStep I x (ph t) x' φ → J x' (Function.update ph t φ))
    {d : D} {b : T → B} {as : List (T × C)} {tr : List (Event T M X)} {s : St T (Shared S D) (Loc M A R B)}
    (h : Run (prog I K) (start I d b) as tr s) : J s.sh.lock (phases s) :=
  h.inv (I := fun s => J s.sh.lock (phases s)) h0 fun _ _ _ _ _ _ hi hs => step_lock_inv hJ hi hs

/-! ## A thread running alone through a call -/

/-- steps of one function without interference, from a point to a later point or to the return -/
inductive Solo (f : Code M C S Q) : S → Q → S → Q ⊕ M → Prop where
  | one {c x p x' q} (h : f c x p = some (x', q)) : Solo f x p x' q
  | more {c x p x' p' x'' q} (h : f c x p = some (x', .inl p')) (hs : Solo f x' p' x'' q) : Solo f x p x'' q

theorem Solo.trans {f : Code M C S Q} {x x' x'' : S} {p p' : Q} {q : Q ⊕ M} (h : Solo f x p x' (.inl p'))
    (h' : Solo f x' p' x'' q) : Solo f x p x'' q := by
  generalize hp : (Sum.inl p' : Q ⊕ M) = o at h
  induction h with
  | one h => subst hp; exact .more h h'
  | more h _ ih => exact .more h (ih h' hp)

theorem run_call {I : Impl M C S A R} {K : Client M D B X} {x : S} {d : D} {b b' : B} {m : M}
    {s : St T (Shared S D) (Loc M A R B)} {t : T} (c : C) (hx : s.sh = ⟨x, d⟩) (hl : s.loc t = ⟨.out, b⟩)
    (hn : K.next d b = some (m, b')) :
    Run (prog I K) s [(t, c)] [.acquiring t m] (s.move t ⟨x, d⟩ ⟨.acquiring (I.acquire m), b'⟩) :=
  Run.single (by simp [prog, hx, hl, hn])

theorem Solo.run_acquire {I : Impl M C S A R} (K : Client M D B X) {x x' : S} {p : A} {m : M}
    (h : Solo I.acquireCode x p x' (.inr m)) {s : St T (Shared S D) (Loc M A R B)} {t : T} {d : D} {b : B}
    (hx : s.sh = ⟨x, d⟩) (hl : s.loc t = ⟨.acquiring p, b⟩) :
    ∃ as, Run (prog I K) s as [.acquired t m] (s.move t ⟨x', d⟩ ⟨.holding m, b⟩) := by
  generalize hq : Sum.inr m = q at h
  induction h generalizing s with
  | @one c x p x' q h =>
    subst hq
    exact ⟨[(t, c)], Run.single (by simp [prog, hx, hl, h])⟩
  | @more c x p x' p' x'' q h _ ih =>
    obtain ⟨as, hr⟩ := ih (s := s.move t ⟨x', d⟩ ⟨.acquiring p', b⟩) rfl (by simp) hq
    have hs : prog I K t c s.sh (s.loc t) = some (⟨x', d⟩, ⟨.acquiring p', b⟩, ([] : List (Event T M X))) := by
      simp [prog, hx, hl, h]
    exact ⟨(t, c) :: as, by simpa [St.move] using hr.cons hs⟩

theorem Solo.run_release {I : Impl M C S A R} (K : Client M D B X) {x x' : S} {p : R} {q : R ⊕ M}
    (h : Solo I.releaseCode x p x' q) {s : St T (Shared S D) (Loc M A R B)} {t : T} {d : D} {b : B}
    (hx : s.sh = ⟨x, d⟩) (hl : s.loc t = ⟨.releasing p, b⟩) :
    (∀ m, q = .inr m → ∃ as, Run (prog I K) s as [.released t m] (s.move t ⟨x', d⟩ ⟨.out, K.after b⟩)) ∧
    ∀ p', q = .inl p' → ∃ as, Run (prog I K) s as [] (s.move t ⟨x', d⟩ ⟨.releasing p', b⟩) := by
  induction h generalizing s with
  | @one c x p x' q h =>
    constructor
    · rintro m rfl
      exact ⟨[(t, c)], Run.single (by simp [prog, hx, hl, h])⟩
    · rintro p' rfl
      exact ⟨[(t, c)], Run.single (by simp [prog, hx, hl, h])⟩
  | @more c x p x' p' x'' q h _ ih =>
    obtain ⟨h1, h2⟩ := ih (s := s.move t ⟨x', d⟩ ⟨.releasing p', b⟩) rfl (by simp)
    have hs : prog I K t c s.sh (s.loc t) = some (⟨x', d⟩, ⟨.releasing p', b⟩, ([] : List (Event T M X))) := by
      simp [prog, hx, hl, h]
    constructor
    · intro m hm
      obtain ⟨as, hr⟩ := h1 m hm
      exact ⟨(t, c) :: as, by simpa [St.move] using hr.cons hs⟩
    · intro p' hp'
      obtain ⟨as, hr⟩ := h2 p' hp'
      exact ⟨(t, c) :: as, by simpa [St.move] using hr.cons hs⟩

/-! ## The client that makes a given list of calls -/

/-- a thread that makes the calls of a list, with nothing but the section's end between acquire and release -/
def callList (M : Type) : Client M Unit (List M) Empty where
  next _ b :=
    match b with
    | [] => none
    | m :: ms => some (m, ms)
  body _ _ _ := none
  after b := b

end OsPractice.LockClient
