/-
The bounded buffer (`concurrency/buffer.c`): producers and consumers over `MAX` slots, with the counting semaphores
`empty` and `full` and the semaphore `mutex` around `put` and `get`.

Each wait, each post, each load and each store of a shared field is one step. `get` takes the slot at `use` and returns
its value. Any number of threads, each a producer or a consumer, make `loops` iterations.

The history of the values given to `put` places them in the ring (`RingBuffer.Live`). `empty` and `full` account for
all slots, those of the threads between a wait and the matching post included (`Inv.empty`, `Inv.full`): so a thread
that stores has room and a thread that loads has a stored value.

Results:
- `gots_prefix`: what the consumers got is a prefix of what the producers put;
- `buffer_no_deadlock`: while a producer and a consumer have not finished, some thread can step.
-/
import OsPractice.Core.Interleave
import OsPractice.Core.Monitor
import OsPractice.Core.RingBuffer

namespace OsPractice.Buffer

open Interleave Semaphore RingBuffer

/-! ## Model -/

/-- the number of slots -/
def MAX : ℕ := 10

instance : NeZero MAX := ⟨by decide⟩

structure Mem where
  empty : ℕ
  full : ℕ
  mutex : ℕ
  buffer : Fin MAX → ℤ
  fill : Fin MAX
  use : Fin MAX

/-- `main`, and the zero initialisation of the globals -/
def init : Mem :=
  { empty := MAX, full := 0, mutex := 1, buffer := fun _ => 0, fill := slot MAX 0, use := slot MAX 0 }

inductive Put where
  | loadSlot
  | storeSlot (k : Fin MAX)
  | loadFill
  | storeFill (k : Fin MAX)
  deriving DecidableEq

def put (value : ℤ) (m : Mem) : Put → Mem × Option Put
  | .loadSlot => (m, some (.storeSlot m.fill))
  | .storeSlot k => ({ m with buffer := Function.update m.buffer k value }, some .loadFill)
  | .loadFill => (m, some (.storeFill m.fill))
  | .storeFill k => ({ m with fill := next k }, none)

inductive Get where
  | loadSlot
  | loadValue (k : Fin MAX)
  | loadUse (tmp : ℤ)
  | storeUse (tmp : ℤ) (k : Fin MAX)
  deriving DecidableEq

/-- `get`, with the value it returns -/
def get (m : Mem) : Get → Mem × (Get ⊕ ℤ)
  | .loadSlot => (m, .inl (.loadValue m.use))
  | .loadValue k => (m, .inl (.loadUse (m.buffer k)))
  | .loadUse tmp => (m, .inl (.storeUse tmp m.use))
  | .storeUse tmp k => ({ m with use := next k }, .inr tmp)

inductive Producer where
  | test
  | waitEmpty
  | waitMutex
  | put (p : Put)
  | postMutex
  | postFull
  deriving DecidableEq

def producer (loops : ℤ) (m : Mem) (i : ℕ) : Producer → Option (Mem × ℕ × Producer)
  | .test => if (i : ℤ) < loops then some (m, i, .waitEmpty) else none
  | .waitEmpty => (semWait m.empty).map fun v => ({ m with empty := v }, i, .waitMutex)
  | .waitMutex => (semWait m.mutex).map fun v => ({ m with mutex := v }, i, .put .loadSlot)
  | .put p =>
    match put i m p with
    | (m', some p') => some (m', i, .put p')
    | (m', none) => some (m', i, .postMutex)
  | .postMutex => some ({ m with mutex := semPost m.mutex }, i, .postFull)
  | .postFull => some ({ m with full := semPost m.full }, i + 1, .test)

inductive Consumer where
  | test
  | waitFull
  | waitMutex
  | get (p : Get)
  | postMutex (tmp : ℤ)
  | postEmpty (tmp : ℤ)
  | print (tmp : ℤ)
  deriving DecidableEq

def consumer (loops : ℤ) (m : Mem) (i : ℕ) : Consumer → Option (Mem × ℕ × Consumer)
  | .test => if (i : ℤ) < loops then some (m, i, .waitFull) else none
  | .waitFull => (semWait m.full).map fun v => ({ m with full := v }, i, .waitMutex)
  | .waitMutex => (semWait m.mutex).map fun v => ({ m with mutex := v }, i, .get .loadSlot)
  | .get p =>
    match get m p with
    | (m', .inl p') => some (m', i, .get p')
    | (m', .inr tmp) => some (m', i, .postMutex tmp)
  | .postMutex tmp => some ({ m with mutex := semPost m.mutex }, i, .postEmpty tmp)
  | .postEmpty tmp => some ({ m with empty := semPost m.empty }, i, .print tmp)
  | .print _ => some (m, i + 1, .test)

inductive Loc where
  | producer (i : ℕ) (p : Producer)
  | consumer (i : ℕ) (p : Consumer)
  deriving DecidableEq

inductive Event (T : Type) where
  /-- `put` has been called with this value -/
  | put (t : T) (v : ℤ)
  /-- `get` has returned this value -/
  | got (t : T) (v : ℤ)
  | printed (t : T) (v : ℤ)
  deriving DecidableEq

variable {T : Type}

/-- what a producer shows at the step from a point -/
def producerShows (t : T) (i : ℕ) : Producer → List (Event T)
  | .waitMutex => [.put t i]
  | _ => []

def consumerShows (t : T) (m : Mem) : Consumer → List (Event T)
  | .get p =>
    match (get m p).2 with
    | .inl _ => []
    | .inr tmp => [.got t tmp]
  | .print tmp => [.printed t tmp]
  | _ => []

def prog (loops : ℤ) : Prog T Unit Mem Loc (Event T) := fun t _ m l =>
  match l with
  | .producer i p => (producer loops m i p).map fun r => (r.1, .producer r.2.1 r.2.2, producerShows t i p)
  | .consumer i p => (consumer loops m i p).map fun r => (r.1, .consumer r.2.1 r.2.2, consumerShows t m p)

inductive Role where
  | producer
  | consumer

def begin : Role → Loc
  | .producer => .producer 0 .test
  | .consumer => .consumer 0 .test

def start (role : T → Role) : St T Mem Loc := ⟨init, fun t => begin (role t)⟩

/-- the values given to `put`, in the order of the calls -/
def puts (tr : List (Event T)) : List ℤ := tr.filterMap fun
  | .put _ v => some v
  | _ => none

/-- the values obtained by `get`, in the order in which the calls return -/
def gots (tr : List (Event T)) : List ℤ := tr.filterMap fun
  | .got _ v => some v
  | _ => none

theorem puts_append (tr es : List (Event T)) : puts (tr ++ es) = puts tr ++ puts es := List.filterMap_append

theorem gots_append (tr es : List (Event T)) : gots (tr ++ es) = gots tr ++ gots es := List.filterMap_append

/-! ## Who is where -/

/-- between the wait on `mutex` and its post -/
def inSection : Loc → ℕ
  | .producer _ (.put _) => 1
  | .producer _ .postMutex => 1
  | .consumer _ (.get _) => 1
  | .consumer _ (.postMutex _) => 1
  | _ => 0

/-- a producer that has passed `empty` and not called `put` -/
def reserving : Loc → ℕ
  | .producer _ .waitMutex => 1
  | _ => 0

/-- a producer that has called `put` and not posted `full` -/
def putting : Loc → ℕ
  | .producer _ (.put _) => 1
  | .producer _ .postMutex => 1
  | .producer _ .postFull => 1
  | _ => 0

/-- a consumer that has passed `full` and not got a value -/
def claiming : Loc → ℕ
  | .consumer _ .waitMutex => 1
  | .consumer _ (.get _) => 1
  | _ => 0

/-- a consumer that has got a value and not posted `empty` -/
def taking : Loc → ℕ
  | .consumer _ (.postMutex _) => 1
  | .consumer _ (.postEmpty _) => 1
  | _ => 0

/-- called `put`, the value not yet in its slot -/
def unstored : Loc → ℕ
  | .producer _ (.put .loadSlot) => 1
  | .producer _ (.put (.storeSlot _)) => 1
  | _ => 0

/-- called `put`, `fill` not yet advanced -/
def behindFill : Loc → ℕ
  | .producer _ (.put _) => 1
  | _ => 0

/-! ## The invariant -/

/-- what has been loaded is still there, and the value being put is the last of the history -/
def Register (m : Mem) (h : List ℤ) : Loc → Prop
  | .producer i (.put .loadSlot) => h.getLast? = some (i : ℤ)
  | .producer i (.put (.storeSlot k)) => h.getLast? = some (i : ℤ) ∧ k = m.fill
  | .producer _ (.put (.storeFill k)) => k = m.fill
  | .consumer _ (.get (.loadValue k)) => k = m.use
  | .consumer _ (.get (.loadUse tmp)) => tmp = m.buffer m.use
  | .consumer _ (.get (.storeUse tmp k)) => tmp = m.buffer m.use ∧ k = m.use
  | _ => True

variable [Fintype T]

structure Inv (tr : List (Event T)) (s : St T Mem Loc) : Prop where
  mutex : s.sh.mutex + total inSection s.loc = 1
  register : ∀ t, Register s.sh (puts tr) (s.loc t)
  /-- every slot is free, reserved, in use or just taken -/
  empty : s.sh.empty + total reserving s.loc + (puts tr).length + total taking s.loc = MAX + (gots tr).length
  full : s.sh.full + total claiming s.loc + total putting s.loc + (gots tr).length = (puts tr).length
  fill : s.sh.fill = slot MAX ((puts tr).length - total behindFill s.loc)
  use : s.sh.use = slot MAX (gots tr).length
  live : Live s.sh.buffer (puts tr) (gots tr).length ((puts tr).length - total unstored s.loc)
  order : gots tr <+: puts tr

/-- outside the section there is nothing half done -/
theorem outside_section {l : Loc} (h : inSection l = 0) :
    behindFill l = 0 ∧ unstored l = 0 ∧ ∀ m hist, Register m hist l := by
  cases l with
  | producer i p => cases p <;> first | exact ⟨rfl, rfl, fun _ _ => trivial⟩ | cases h
  | consumer i p => cases p <;> first | exact ⟨rfl, rfl, fun _ _ => trivial⟩ | cases h

theorem inv_init (role : T → Role) : Inv [] (start role) := by
  have h0 : ∀ w : Loc → ℕ, (∀ r, w (begin r) = 0) → total w (start role).loc = 0 := fun w hw =>
    total_eq_zero fun t => hw (role t)
  refine ⟨?_, ?_, ?_, ?_, ?_, ?_, ?_, List.nil_prefix⟩
  · rw [h0 inSection (by rintro ⟨⟩ <;> rfl)]
    rfl
  · intro t
    simp only [start]
    cases role t <;> trivial
  · rw [h0 reserving (by rintro ⟨⟩ <;> rfl), h0 taking (by rintro ⟨⟩ <;> rfl)]
    rfl
  · rw [h0 claiming (by rintro ⟨⟩ <;> rfl), h0 putting (by rintro ⟨⟩ <;> rfl)]
    rfl
  · rw [h0 behindFill (by rintro ⟨⟩ <;> rfl)]
    rfl
  · rfl
  · intro i h1 h2
    exact absurd h2 (Nat.not_lt_of_le (by simp [puts]))

variable [DecidableEq T]

/-- while `t` is inside the section, or `mutex` is free, nobody else is inside -/
theorem others_outside {tr : List (Event T)} {s : St T Mem Loc} (h : Inv tr s) {t : T}
    (ht : inSection (s.loc t) = 1 ∨ s.sh.mutex ≠ 0) : ∀ u, u ≠ t → inSection (s.loc u) = 0 := by
  intro u hu
  have h1 := add_le_total inSection s.loc hu
  have h2 := h.mutex
  omega

/-- what a step of `t` has to do to keep the invariant -/
theorem Inv.move {tr es : List (Event T)} {s : St T Mem Loc} {t : T} {m : Mem} {l l' : Loc} (h : Inv tr s)
    (hl : s.loc t = l) (hmutex : m.mutex + inSection l' = s.sh.mutex + inSection l)
    (hreg : Register m (puts (tr ++ es)) l')
    (hother : (m.buffer = s.sh.buffer ∧ m.fill = s.sh.fill ∧ m.use = s.sh.use ∧ puts es = []) ∨
      ∀ u, u ≠ t → inSection (s.loc u) = 0)
    (hempty : m.empty + reserving l' + (puts es).length + taking l' =
      s.sh.empty + reserving l + taking l + (gots es).length)
    (hfull : m.full + claiming l' + putting l' + (gots es).length =
      s.sh.full + claiming l + putting l + (puts es).length)
    (hfill : m.fill = slot MAX ((puts (tr ++ es)).length - total behindFill (Function.update s.loc t l')))
    (huse : m.use = slot MAX (gots (tr ++ es)).length)
    (hlive : Live m.buffer (puts (tr ++ es)) (gots (tr ++ es)).length
      ((puts (tr ++ es)).length - total unstored (Function.update s.loc t l')))
    (horder : gots (tr ++ es) <+: puts (tr ++ es)) : Inv (tr ++ es) (s.move t m l') := by
  subst hl
  have hI := total_update inSection s.loc t l'
  have hR := total_update reserving s.loc t l'
  have hK := total_update taking s.loc t l'
  have hC := total_update claiming s.loc t l'
  have hP := total_update putting s.loc t l'
  have h1 := h.mutex
  have h2 := h.empty
  have h3 := h.full
  refine ⟨?_, ?_, ?_, ?_, hfill, huse, hlive, horder⟩
  · simp only [St.move_sh, St.move_loc]
    omega
  · refine s.forall_move (p := fun _ l => Register m (puts (tr ++ es)) l) m hreg fun u hu => ?_
    rcases hother with ⟨hbuffer, h4, h5, h6⟩ | h4
    · have hru := h.register u
      rw [puts_append, h6, List.append_nil]
      cases hq : s.loc u with
      | producer i p =>
        rw [hq] at hru
        cases p with
        | put p => cases p <;> simp only [Register, h4] at hru ⊢ <;> exact hru
        | _ => trivial
      | consumer i p =>
        rw [hq] at hru
        cases p with
        | get p => cases p <;> simp only [Register, h5, hbuffer] at hru ⊢ <;> exact hru
        | _ => trivial
    · exact (outside_section (h4 u hu)).2.2 _ _
  · simp only [St.move_sh, St.move_loc, puts_append, gots_append, List.length_append]
    omega
  · simp only [St.move_sh, St.move_loc, puts_append, gots_append, List.length_append]
    omega

/-- a step that does not touch the ring -/
theorem Inv.quiet {tr es : List (Event T)} {s : St T Mem Loc} {t : T} {m : Mem} {l l' : Loc} (h : Inv tr s)
    (hl : s.loc t = l) (hes : puts es = [] ∧ gots es = [])
    (hm : m.buffer = s.sh.buffer ∧ m.fill = s.sh.fill ∧ m.use = s.sh.use)
    (hbehind : behindFill l' = behindFill l ∧ unstored l' = unstored l)
    (hmutex : m.mutex + inSection l' = s.sh.mutex + inSection l) (hreg : Register m (puts tr) l')
    (hempty : m.empty + reserving l' + taking l' = s.sh.empty + reserving l + taking l)
    (hfull : m.full + claiming l' + putting l' = s.sh.full + claiming l + putting l) :
    Inv (tr ++ es) (s.move t m l') := by
  have hF := total_update behindFill s.loc t l'
  have hS := total_update unstored s.loc t l'
  rw [hl] at hF hS
  obtain ⟨h1, h2⟩ := hes
  obtain ⟨h3, h4, h5⟩ := hm
  obtain ⟨h6, h7⟩ := hbehind
  have hp : puts (tr ++ es) = puts tr := by rw [puts_append, h1, List.append_nil]
  have hg : gots (tr ++ es) = gots tr := by rw [gots_append, h2, List.append_nil]
  refine h.move hl hmutex (by rw [hp]; exact hreg) (.inl ⟨h3, h4, h5, h1⟩) ?_ ?_ ?_ ?_ ?_ ?_
  · rw [h1, h2]
    exact hempty
  · rw [h1, h2]
    exact hfull
  · rw [hp, h4, show total behindFill (Function.update s.loc t l') = total behindFill s.loc by omega]
    exact h.fill
  · rw [hg, h5]
    exact h.use
  · rw [hp, hg, h3, show total unstored (Function.update s.loc t l') = total unstored s.loc by omega]
    exact h.live
  · rw [hp, hg]
    exact h.order

omit [DecidableEq T] in
theorem only_inside {loc : T → Loc} {t : T} (h : ∀ u, u ≠ t → inSection (loc u) = 0) :
    total behindFill loc = behindFill (loc t) ∧ total unstored loc = unstored (loc t) :=
  ⟨total_eq_single t fun u hu => (outside_section (h u hu)).1,
    total_eq_single t fun u hu => (outside_section (h u hu)).2.1⟩

omit [DecidableEq T] in
/-- the ring as `t` finds it when nobody else is inside the section -/
theorem Inv.ring {tr : List (Event T)} {s : St T Mem Loc} {t : T} {l : Loc} (h : Inv tr s) (hl : s.loc t = l)
    (hout : ∀ u, u ≠ t → inSection (s.loc u) = 0) :
    s.sh.fill = slot MAX ((puts tr).length - behindFill l) ∧
      Live s.sh.buffer (puts tr) (gots tr).length ((puts tr).length - unstored l) := by
  obtain ⟨h1, h2⟩ := only_inside hout
  rw [hl] at h1 h2
  exact ⟨h1 ▸ h.fill, h2 ▸ h.live⟩

/-- a step made while nobody else is inside the section -/
theorem Inv.inside {tr es : List (Event T)} {s : St T Mem Loc} {t : T} {m : Mem} {l l' : Loc} (h : Inv tr s)
    (hl : s.loc t = l) (hout : ∀ u, u ≠ t → inSection (s.loc u) = 0)
    (hmutex : m.mutex + inSection l' = s.sh.mutex + inSection l) (hreg : Register m (puts (tr ++ es)) l')
    (hempty : m.empty + reserving l' + (puts es).length + taking l' =
      s.sh.empty + reserving l + taking l + (gots es).length)
    (hfull : m.full + claiming l' + putting l' + (gots es).length =
      s.sh.full + claiming l + putting l + (puts es).length)
    (hfill : m.fill = slot MAX ((puts (tr ++ es)).length - behindFill l'))
    (huse : m.use = slot MAX (gots (tr ++ es)).length)
    (hlive : Live m.buffer (puts (tr ++ es)) (gots (tr ++ es)).length ((puts (tr ++ es)).length - unstored l'))
    (horder : gots (tr ++ es) <+: puts (tr ++ es)) : Inv (tr ++ es) (s.move t m l') := by
  have hout' : ∀ u, u ≠ t → inSection (Function.update s.loc t l' u) = 0 := fun u hu => by
    rw [Function.update_of_ne hu]
    exact hout u hu
  obtain ⟨h1, h2⟩ := only_inside hout'
  rw [Function.update_self] at h1 h2
  exact h.move hl hmutex hreg (.inr hout) hempty hfull (h1 ▸ hfill) huse (h2 ▸ hlive) horder

section Steps

variable {tr : List (Event T)} {s : St T Mem Loc} {t : T} {i : ℕ}

/-- a producer enters the section and calls `put` -/
theorem inv_call (h : Inv tr s) (hl : s.loc t = .producer i .waitMutex) {v : ℕ} (hv : s.sh.mutex = v + 1) :
    Inv (tr ++ [.put t i]) (s.move t { s.sh with mutex := v } (.producer i (.put .loadSlot))) := by
  have hout := others_outside h (t := t) (.inr (by omega))
  obtain ⟨hfill, hlive⟩ := h.ring hl hout
  have hp : puts (tr ++ [.put t i]) = puts tr ++ [(i : ℤ)] := puts_append _ _
  have hg : gots (tr ++ [.put t (i : ℤ)]) = gots tr := by rw [gots_append]; exact List.append_nil _
  refine h.inside hl hout ?_ ?_ ?_ ?_ ?_ ?_ ?_ ?_
  · simp only [inSection]
    omega
  · rw [hp]
    exact List.getLast?_concat
  · simp [reserving, taking, puts, gots]
  · simp [claiming, putting, puts, gots]
  · rw [hp, List.length_append]
    exact hfill
  · rw [hg]
    exact h.use
  · rw [hp, hg, List.length_append]
    exact hlive.append _
  · rw [hp, hg]
    exact h.order.trans (List.prefix_append _ _)

/-- a producer stores its value: the slot is free -/
theorem inv_store (h : Inv tr s) {k : Fin MAX} (hl : s.loc t = .producer i (.put (.storeSlot k))) :
    Inv (tr ++ [])
      (s.move t { s.sh with buffer := Function.update s.sh.buffer k i } (.producer i (.put .loadFill))) := by
  have hin : inSection (s.loc t) = 1 := by rw [hl]; rfl
  have hout := others_outside h (.inl hin)
  obtain ⟨hfill, hlive⟩ := h.ring hl hout
  have hreg := h.register t
  rw [hl] at hreg
  obtain ⟨hlast, rfl⟩ := hreg
  have hpos : 0 < (puts tr).length := by
    by_contra h0
    rw [List.length_eq_zero_iff.1 (by omega : (puts tr).length = 0)] at hlast
    cases hlast
  have hroom : (puts tr).length - 1 < (gots tr).length + MAX := by
    have := h.empty
    omega
  have hlast' : (puts tr)[(puts tr).length - 1]? = some (i : ℤ) := by rw [← List.getLast?_eq_getElem?]; exact hlast
  have hlive' : Live s.sh.buffer (puts tr) (gots tr).length ((puts tr).length - 1) := hlive
  have hnew := hlive'.store hroom hlast'
  rw [Nat.sub_add_cancel hpos] at hnew
  refine h.inside hl hout rfl ?_ rfl rfl ?_ ?_ ?_ ?_ <;> rw [List.append_nil]
  · trivial
  · exact hfill
  · exact h.use
  · have hk : s.sh.fill = slot MAX ((puts tr).length - 1) := hfill
    rw [hk]
    exact hnew
  · exact h.order

/-- a producer advances `fill` -/
theorem inv_fill (h : Inv tr s) {k : Fin MAX} (hl : s.loc t = .producer i (.put (.storeFill k))) :
    Inv (tr ++ []) (s.move t { s.sh with fill := next k } (.producer i .postMutex)) := by
  have hin : inSection (s.loc t) = 1 := by rw [hl]; rfl
  have hout := others_outside h (.inl hin)
  obtain ⟨hfill, hlive⟩ := h.ring hl hout
  have hreg := h.register t
  rw [hl] at hreg
  obtain rfl : k = s.sh.fill := hreg
  have hpos : 1 ≤ (puts tr).length := by
    have h1 := h.full
    have h2 := le_total putting s.loc t
    simp only [hl, putting] at h2
    omega
  refine h.inside hl hout rfl ?_ rfl rfl ?_ ?_ ?_ ?_ <;> rw [List.append_nil]
  · trivial
  · have hk : s.sh.fill = slot MAX ((puts tr).length - 1) := hfill
    rw [hk, next_slot, Nat.sub_add_cancel hpos]
    rfl
  · exact h.use
  · exact hlive
  · exact h.order

/-- `get` advances `use` and returns the oldest value: it is stored -/
theorem inv_return (h : Inv tr s) {tmp : ℤ} {k : Fin MAX} (hl : s.loc t = .consumer i (.get (.storeUse tmp k))) :
    Inv (tr ++ [.got t tmp]) (s.move t { s.sh with use := next k } (.consumer i (.postMutex tmp))) := by
  have hin : inSection (s.loc t) = 1 := by rw [hl]; rfl
  have hout := others_outside h (.inl hin)
  obtain ⟨hfill, hlive⟩ := h.ring hl hout
  have hreg := h.register t
  rw [hl] at hreg
  obtain ⟨rfl, rfl⟩ := hreg
  have hlt : (gots tr).length < (puts tr).length := by
    have h1 := h.full
    have h2 := le_total claiming s.loc t
    simp only [hl, claiming] at h2
    omega
  have hval := Live.load hlive hlt
  rw [← h.use] at hval
  have hp : puts (tr ++ [.got t (s.sh.buffer s.sh.use)]) = puts tr := by rw [puts_append]; exact List.append_nil _
  have hg : gots (tr ++ [.got t (s.sh.buffer s.sh.use)]) = gots tr ++ [s.sh.buffer s.sh.use] := gots_append _ _
  refine h.inside hl hout rfl trivial ?_ ?_ ?_ ?_ ?_ ?_
  · simp [reserving, taking, puts, gots]
  · simp [claiming, putting, puts, gots]
  · rw [hp]
    exact hfill
  · rw [hg, List.length_append, List.length_singleton, ← next_slot, ← h.use]
  · rw [hp, hg, List.length_append]
    exact hlive.take
  · rw [hp, hg]
    exact prefix_next h.order hval

end Steps

theorem inv_producer {loops : ℤ} {tr : List (Event T)} {s : St T Mem Loc} {t : T} {m : Mem} {i j : ℕ} {p q : Producer}
    (h : Inv tr s) (hl : s.loc t = .producer i p) (hs : producer loops s.sh i p = some (m, j, q)) :
    Inv (tr ++ producerShows t i p) (s.move t m (.producer j q)) := by
  cases p with
  | test =>
    simp only [producer] at hs
    split_ifs at hs
    cases hs
    exact h.quiet hl ⟨rfl, rfl⟩ ⟨rfl, rfl, rfl⟩ ⟨rfl, rfl⟩ rfl trivial rfl rfl
  | waitEmpty =>
    obtain ⟨v, hv, he⟩ := wait_step hs
    cases he
    refine h.quiet hl ⟨rfl, rfl⟩ ⟨rfl, rfl, rfl⟩ ⟨rfl, rfl⟩ rfl trivial ?_ rfl
    simp only [reserving, taking]
    omega
  | waitMutex =>
    obtain ⟨v, hv, he⟩ := wait_step hs
    cases he
    exact inv_call h hl hv
  | put p =>
    have hreg := h.register t
    rw [hl] at hreg
    cases p with
    | loadSlot =>
      cases hs
      exact h.quiet hl ⟨rfl, rfl⟩ ⟨rfl, rfl, rfl⟩ ⟨rfl, rfl⟩ rfl ⟨hreg, rfl⟩ rfl rfl
    | storeSlot k =>
      cases hs
      exact inv_store h hl
    | loadFill =>
      cases hs
      exact h.quiet hl ⟨rfl, rfl⟩ ⟨rfl, rfl, rfl⟩ ⟨rfl, rfl⟩ rfl rfl rfl rfl
    | storeFill k =>
      cases hs
      exact inv_fill h hl
  | postMutex =>
    cases hs
    exact h.quiet hl ⟨rfl, rfl⟩ ⟨rfl, rfl, rfl⟩ ⟨rfl, rfl⟩ rfl trivial rfl rfl
  | postFull =>
    cases hs
    exact h.quiet hl ⟨rfl, rfl⟩ ⟨rfl, rfl, rfl⟩ ⟨rfl, rfl⟩ rfl trivial rfl rfl

theorem inv_consumer {loops : ℤ} {tr : List (Event T)} {s : St T Mem Loc} {t : T} {m : Mem} {i j : ℕ} {p q : Consumer}
    (h : Inv tr s) (hl : s.loc t = .consumer i p) (hs : consumer loops s.sh i p = some (m, j, q)) :
    Inv (tr ++ consumerShows t s.sh p) (s.move t m (.consumer j q)) := by
  cases p with
  | test =>
    simp only [consumer] at hs
    split_ifs at hs
    cases hs
    exact h.quiet hl ⟨rfl, rfl⟩ ⟨rfl, rfl, rfl⟩ ⟨rfl, rfl⟩ rfl trivial rfl rfl
  | waitFull =>
    obtain ⟨v, hv, he⟩ := wait_step hs
    cases he
    refine h.quiet hl ⟨rfl, rfl⟩ ⟨rfl, rfl, rfl⟩ ⟨rfl, rfl⟩ rfl trivial rfl ?_
    simp only [claiming, putting]
    omega
  | waitMutex =>
    obtain ⟨v, hv, he⟩ := wait_step hs
    cases he
    exact h.quiet hl ⟨rfl, rfl⟩ ⟨rfl, rfl, rfl⟩ ⟨rfl, rfl⟩ hv.symm trivial rfl rfl
  | get p =>
    have hreg := h.register t
    rw [hl] at hreg
    cases p with
    | loadSlot =>
      cases hs
      exact h.quiet hl ⟨rfl, rfl⟩ ⟨rfl, rfl, rfl⟩ ⟨rfl, rfl⟩ rfl rfl rfl rfl
    | loadValue k =>
      cases hs
      exact h.quiet hl ⟨rfl, rfl⟩ ⟨rfl, rfl, rfl⟩ ⟨rfl, rfl⟩ rfl (congrArg s.sh.buffer hreg) rfl rfl
    | loadUse tmp =>
      cases hs
      exact h.quiet hl ⟨rfl, rfl⟩ ⟨rfl, rfl, rfl⟩ ⟨rfl, rfl⟩ rfl ⟨hreg, rfl⟩ rfl rfl
    | storeUse tmp k =>
      cases hs
      exact inv_return h hl
  | postMutex tmp =>
    cases hs
    exact h.quiet hl ⟨rfl, rfl⟩ ⟨rfl, rfl, rfl⟩ ⟨rfl, rfl⟩ rfl trivial rfl rfl
  | postEmpty tmp =>
    cases hs
    exact h.quiet hl ⟨rfl, rfl⟩ ⟨rfl, rfl, rfl⟩ ⟨rfl, rfl⟩ rfl trivial rfl rfl
  | print tmp =>
    cases hs
    exact h.quiet hl ⟨rfl, rfl⟩ ⟨rfl, rfl, rfl⟩ ⟨rfl, rfl⟩ rfl trivial rfl rfl

theorem inv_step {loops : ℤ} {tr es : List (Event T)} {s : St T Mem Loc} {t : T} {c : Unit} {m : Mem} {l : Loc}
    (h : Inv tr s) (hs : prog loops t c s.sh (s.loc t) = some (m, l, es)) : Inv (tr ++ es) (s.move t m l) := by
  cases hl : s.loc t with
  | producer i p =>
    rw [hl] at hs
    obtain ⟨⟨m', j, q⟩, hp, he⟩ := Option.map_eq_some_iff.1 hs
    cases he
    exact inv_producer h hl hp
  | consumer i p =>
    rw [hl] at hs
    obtain ⟨⟨m', j, q⟩, hp, he⟩ := Option.map_eq_some_iff.1 hs
    cases he
    exact inv_consumer h hl hp

theorem run_inv {loops : ℤ} {role : T → Role} {as : List (T × Unit)} {tr : List (Event T)} {s : St T Mem Loc}
    (h : Run (prog loops) (start role) as tr s) : Inv tr s :=
  h.inv_trace (I := Inv) (inv_init role) fun _ _ _ _ _ _ _ hi hs => inv_step hi hs

/-! ## First in, first out -/

/-- **First in, first out.** At every moment of every run, for any producers and consumers and any loop count, the
values obtained by `get` are a prefix of the values given to `put`, both in the order of the calls. -/
theorem gots_prefix (role : T → Role) (loops : ℤ) {as : List (T × Unit)} {tr : List (Event T)} {s : St T Mem Loc}
    (h : Run (prog loops) (start role) as tr s) : gots tr <+: puts tr := (run_inv h).order

/-- a producer that has put two values and a consumer that has got the first one -/
theorem gots_prefix_two :
    ∃ as tr s, Run (prog 2) (start fun t : Fin 2 => if t = 0 then .producer else .consumer) as tr s ∧
      gots tr = [0] ∧ puts tr = [0, 1] ∧ gots tr <+: puts tr := by
  obtain ⟨s, tr, h, hg, hp⟩ := exec_any_run (prog 2) (start fun t : Fin 2 => if t = 0 then .producer else .consumer)
    ((List.replicate 18 (0 : Fin 2) ++ List.replicate 7 1).map fun t => (t, ()))
    (fun _ tr => gots tr = [0] ∧ puts tr = [0, 1]) (by decide +kernel)
  exact ⟨_, tr, s, h, hg, hp, gots_prefix _ _ h⟩

/-! ## Progress -/

/-- the loop is over -/
def Finished (loops : ℤ) : Loc → Prop
  | .producer i .test => loops ≤ i
  | .consumer i .test => loops ≤ i
  | _ => False

/-- where the threads are in a state in which none can step -/
def Stuck (loops : ℤ) (m : Mem) (l : Loc) : Prop :=
  Finished loops l ∨ (∃ i, l = .producer i .waitEmpty ∧ m.empty = 0) ∨ ∃ i, l = .consumer i .waitFull ∧ m.full = 0

omit [Fintype T] [DecidableEq T] in
theorem stuck_of_blocked {loops : ℤ} {s : St T Mem Loc} {t : T} (h : prog loops t () s.sh (s.loc t) = none)
    (hm : s.sh.mutex ≠ 0) : Stuck loops s.sh (s.loc t) := by
  cases hl : s.loc t with
  | producer i p =>
    rw [hl] at h
    have hp : producer loops s.sh i p = none := Option.map_eq_none_iff.1 h
    cases p with
    | test =>
      simp only [producer] at hp
      split_ifs at hp with hi
      exact .inl (not_lt.1 hi)
    | waitEmpty => exact .inr (.inl ⟨i, rfl, semWait_eq_none.1 (Option.map_eq_none_iff.1 hp)⟩)
    | waitMutex => exact absurd (semWait_eq_none.1 (Option.map_eq_none_iff.1 hp)) hm
    | put p => cases p <;> cases hp
    | postMutex => cases hp
    | postFull => cases hp
  | consumer i p =>
    rw [hl] at h
    have hp : consumer loops s.sh i p = none := Option.map_eq_none_iff.1 h
    cases p with
    | test =>
      simp only [consumer] at hp
      split_ifs at hp with hi
      exact .inl (not_lt.1 hi)
    | waitFull => exact .inr (.inr ⟨i, rfl, semWait_eq_none.1 (Option.map_eq_none_iff.1 hp)⟩)
    | waitMutex => exact absurd (semWait_eq_none.1 (Option.map_eq_none_iff.1 hp)) hm
    | get p => cases p <;> cases hp
    | postMutex tmp => cases hp
    | postEmpty tmp => cases hp
    | print tmp => cases hp

omit [Fintype T] [DecidableEq T] in
/-- inside the section nothing is waited for -/
theorem canStep_of_inSection {loops : ℤ} {s : St T Mem Loc} {t : T} (h : 0 < inSection (s.loc t)) :
    CanStep (prog loops) s t := by
  refine ⟨(), ?_⟩
  cases hl : s.loc t with
  | producer i p =>
    rw [hl] at h
    cases p with
    | put p => cases p <;> rfl
    | postMutex => rfl
    | _ => simp [inSection] at h
  | consumer i p =>
    rw [hl] at h
    cases p with
    | get p => cases p <;> rfl
    | postMutex tmp => rfl
    | _ => simp [inSection] at h

omit [Fintype T] [DecidableEq T] in
/-- nothing is half done at the points where a thread can be stuck -/
theorem Stuck.idle {loops : ℤ} {m : Mem} {l : Loc} (h : Stuck loops m l) :
    reserving l = 0 ∧ putting l = 0 ∧ claiming l = 0 ∧ taking l = 0 := by
  rcases h with h | ⟨i, rfl, -⟩ | ⟨i, rfl, -⟩
  · cases l with
    | producer i p => cases p <;> first | exact ⟨rfl, rfl, rfl, rfl⟩ | cases h
    | consumer i p => cases p <;> first | exact ⟨rfl, rfl, rfl, rfl⟩ | cases h
  · exact ⟨rfl, rfl, rfl, rfl⟩
  · exact ⟨rfl, rfl, rfl, rfl⟩

omit [DecidableEq T] in
/-- if nobody can step, then `empty` and `full` are not both 0: some slot is free or filled -/
theorem tokens_of_stuck {loops : ℤ} {tr : List (Event T)} {s : St T Mem Loc} (h : Inv tr s)
    (hno : ∀ t, ¬ CanStep (prog loops) s t) :
    (∀ t, Stuck loops s.sh (s.loc t)) ∧ s.sh.empty + s.sh.full = MAX := by
  have hin : total inSection s.loc = 0 := total_eq_zero fun t => by
    by_contra h0
    exact hno t (canStep_of_inSection (Nat.pos_of_ne_zero h0))
  have hmutex : s.sh.mutex ≠ 0 := by
    have := h.mutex
    omega
  have hstuck : ∀ t, Stuck loops s.sh (s.loc t) := fun t => stuck_of_blocked (not_canStep (hno t) ()) hmutex
  refine ⟨hstuck, ?_⟩
  have h1 : total reserving s.loc = 0 := total_eq_zero fun t => (hstuck t).idle.1
  have h2 : total putting s.loc = 0 := total_eq_zero fun t => (hstuck t).idle.2.1
  have h3 : total claiming s.loc = 0 := total_eq_zero fun t => (hstuck t).idle.2.2.1
  have h4 : total taking s.loc = 0 := total_eq_zero fun t => (hstuck t).idle.2.2.2
  have h5 := h.empty
  have h6 := h.full
  omega

def roleOf : Loc → Role
  | .producer _ _ => .producer
  | .consumer _ _ => .consumer

omit [Fintype T] in
theorem run_role {loops : ℤ} {role : T → Role} {as : List (T × Unit)} {tr : List (Event T)} {s : St T Mem Loc}
    (h : Run (prog loops) (start role) as tr s) (t : T) : roleOf (s.loc t) = role t := by
  refine h.inv (I := fun s => roleOf (s.loc t) = role t) ?_ ?_
  · simp only [start]
    cases role t <;> rfl
  · intro s u c m l es hi hs
    by_cases hu : t = u
    · subst hu
      rw [← hi, St.move_loc, Function.update_self]
      cases hl : s.loc t with
      | producer i p =>
        rw [hl] at hs
        obtain ⟨r, -, he⟩ := Option.map_eq_some_iff.1 hs
        cases he
        rfl
      | consumer i p =>
        rw [hl] at hs
        obtain ⟨r, -, he⟩ := Option.map_eq_some_iff.1 hs
        cases he
        rfl
    · rw [St.move_loc, Function.update_of_ne hu]
      exact hi

/-- **No deadlock.** For any producers and consumers and any loop count: in every reachable state in which some
producer and some consumer have not finished, some thread can step. -/
theorem buffer_no_deadlock (role : T → Role) (loops : ℤ) {as : List (T × Unit)} {tr : List (Event T)} {s : St T Mem Loc}
    (h : Run (prog loops) (start role) as tr s) {p c : T} (hp : role p = .producer) (hc : role c = .consumer)
    (hp' : ¬ Finished loops (s.loc p)) (hc' : ¬ Finished loops (s.loc c)) : ∃ t, CanStep (prog loops) s t := by
  by_contra hno
  push Not at hno
  obtain ⟨hstuck, hsum⟩ := tokens_of_stuck (run_inv h) hno
  have hempty : s.sh.empty = 0 := by
    rcases hstuck p with h1 | ⟨i, -, h1⟩ | ⟨i, h1, -⟩
    · exact absurd h1 hp'
    · exact h1
    · have := run_role h p
      rw [h1, hp] at this
      cases this
  have hfull : s.sh.full = 0 := by
    rcases hstuck c with h1 | ⟨i, h1, -⟩ | ⟨i, -, h1⟩
    · exact absurd h1 hc'
    · have := run_role h c
      rw [h1, hc] at this
      cases this
    · exact h1
  rw [hempty, hfull] at hsum
  exact absurd hsum (by decide)

/-- a consumer that waits for the producer, which has not begun -/
theorem buffer_no_deadlock_two :
    ∃ as tr s, Run (prog 1) (start fun t : Fin 2 => if t = 0 then .producer else .consumer) as tr s ∧
      ¬ CanStep (prog 1) s 1 ∧ ∃ t, CanStep (prog 1) s t := by
  obtain ⟨s, tr, h, h0, h1⟩ := exec_any_run (prog 1) (start fun t : Fin 2 => if t = 0 then .producer else .consumer)
    [(1, ())] (fun s _ => s.loc 0 = .producer 0 .test ∧ s.loc 1 = .consumer 0 .waitFull ∧ s.sh.full = 0)
    (by decide +kernel)
  refine ⟨_, tr, s, h, ?_, buffer_no_deadlock _ 1 h (p := 0) (c := 1) rfl rfl ?_ ?_⟩
  · rintro ⟨c, hc⟩
    simp [prog, h1.1, consumer, h1.2, semWait] at hc
  · simp [h0, Finished]
  · simp [h1.1, Finished]

end OsPractice.Buffer
