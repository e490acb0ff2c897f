/-
Lock discipline of the list with hand-over-hand locking.

A thread that waits for a mutex holds at most the node before the one it waits for (`Inv.waits`), so the holder of the
last locked node of the chain waits for nobody. The nodes that the local variables of an operation point to are on the
chain or its own, and allocated (`Inv.pointers_live`).

Result: `lock_discipline`.
-/
import OsPractice.Concurrency.LockCouplingSerial

namespace OsPractice.LockCoupling

open Interleave Heap

variable {T : Type} [DecidableEq T] {g : Ghost} {vs : List ℤ} {tr : List (Event T)} {x : State T}
  {rs : T → Option Running} {t : T} {r : Running} {a : Addr}

/-! ## Waiting -/

/-- the node whose mutex the next step locks -/
def waitsFor : Running → Option Addr
  | .insert _ (.lockPrev _ prev) => some prev
  | .insert _ (.lockCurr _ _ curr) => some curr
  | .delete _ (.lockPrev prev) => some prev
  | .delete _ (.lockCurr _ curr) => some curr
  | _ => none

omit [DecidableEq T] in
/-- only a mutex that is locked holds an operation up -/
theorem locked_of_blocked (h : ∀ c, runStep t c x r = none) :
    ∃ a, waitsFor r = some a ∧ (x.node a).mutex ≠ none := by
  have hlock : ∀ a, x.lock t a = none → (x.node a).mutex ≠ none := fun a ha hm => by
    have := (lock_eq_some (t := t)).2 ⟨hm, rfl⟩
    rw [ha] at this
    cases this
  have h := h ⟨none, ⟨none, 0, none⟩⟩
  cases r with
  | insert v p =>
    have hp := Option.map_eq_none_iff.1 h
    cases p with
    | lockPrev new prev => exact ⟨prev, rfl, hlock prev (Option.map_eq_none_iff.1 hp)⟩
    | lockCurr new prev curr => exact ⟨curr, rfl, hlock curr (Option.map_eq_none_iff.1 hp)⟩
    | loadCurr new prev =>
      simp only [listInsert] at hp
      split at hp <;> cases hp
    | storeNewNext new prev curr => cases curr <;> cases hp
    | _ => cases hp
  | delete v p =>
    have hp := Option.map_eq_none_iff.1 h
    cases p with
    | lockPrev prev => exact ⟨prev, rfl, hlock prev (Option.map_eq_none_iff.1 hp)⟩
    | lockCurr prev curr => exact ⟨curr, rfl, hlock curr (Option.map_eq_none_iff.1 hp)⟩
    | loadCurr prev =>
      simp only [listDelete] at hp
      split at hp <;> cases hp
    | testVal prev curr =>
      simp only [listDelete] at hp
      split_ifs at hp
    | _ => cases hp

omit [DecidableEq T] in
/-- who waits for a node holds at most the one before it -/
theorem Inv.waits (h : Inv g vs x rs) (hr : rs t = some r) (ha : waitsFor r = some a) :
    a ∈ g.nodes ∧ ∀ b ∈ holds (rs t), g.nxt b = some a := by
  have hf := h.facts t
  have hhead := h.head_mem
  rw [hr] at hf ⊢
  cases r with
  | insert v p =>
    cases p with
    | lockPrev new prev =>
      obtain rfl := Option.some.inj ha
      obtain ⟨-, -, rfl⟩ := hf
      exact ⟨hhead, by simp [holds]⟩
    | lockCurr new prev curr =>
      obtain rfl := Option.some.inj ha
      obtain ⟨-, -, rfl, hcurr⟩ := hf
      exact ⟨h.chain.mem_next hhead hcurr, by simpa [holds] using hcurr⟩
    | _ => cases ha
  | delete v p =>
    cases p with
    | lockPrev prev =>
      obtain rfl := Option.some.inj ha
      obtain rfl : prev = x.head := hf
      exact ⟨hhead, by simp [holds]⟩
    | lockCurr prev curr =>
      obtain rfl := Option.some.inj ha
      exact ⟨h.chain.mem_next hf.1 hf.2, by simpa [holds] using hf.2⟩
    | _ => cases ha

omit [DecidableEq T] in
/-- the holder of the last locked node of the chain can go on -/
theorem Inv.progress (h : Inv g vs x rs) (hr : rs t = some r) : ∃ u q c, rs u = some q ∧ runStep u c x q ≠ none := by
  by_contra hno
  push Not at hno
  have hwait : ∀ u q, rs u = some q → ∃ a, waitsFor q = some a ∧ (x.node a).mutex ≠ none :=
    fun u q hu => locked_of_blocked fun c => hno u q c hu
  obtain ⟨a, ha, hlocked⟩ := hwait t r hr
  obtain ⟨b, hb, hmb, hlast⟩ := h.chain.last (q := fun b => (x.node b).mutex ≠ none) ⟨a, (h.waits hr ha).1, hlocked⟩
  obtain ⟨u, hu⟩ := Option.ne_none_iff_exists'.1 hmb
  have hheld := h.owned b hb u hu
  cases hq : rs u with
  | none =>
    rw [hq] at hheld
    simp [holds] at hheld
  | some q =>
    obtain ⟨c, hc, hmc⟩ := hwait u q hq
    exact hlast c ((h.waits hq hc).2 b hheld) hmc

/-! ## Pointers -/

/-- the nodes that the local variables of an operation point to -/
def pointers : Option Running → List Addr
  | some (.insert _ (.storeVal new)) => [new]
  | some (.insert _ (.storeNull new)) => [new]
  | some (.insert _ (.mutexInit new)) => [new]
  | some (.insert _ (.loadHead new)) => [new]
  | some (.insert _ (.lockPrev new prev)) => [new, prev]
  | some (.insert _ (.loadCurr new prev)) => [new, prev]
  | some (.insert _ (.lockCurr new prev curr)) => [new, prev, curr]
  | some (.insert _ (.storePrevNext new prev curr)) => new :: prev :: curr.toList
  | some (.insert _ (.storeNewNext new prev curr)) => new :: prev :: curr.toList
  | some (.insert _ (.unlockCurr prev curr)) => [prev, curr]
  | some (.insert _ (.unlockPrev prev)) => [prev]
  | some (.delete _ (.lockPrev prev)) => [prev]
  | some (.delete _ (.loadCurr prev)) => [prev]
  | some (.delete _ (.lockCurr prev curr)) => [prev, curr]
  | some (.delete _ (.testVal prev curr)) => [prev, curr]
  | some (.delete _ (.loadNext prev curr)) => [prev, curr]
  | some (.delete _ (.storePrevNext prev curr next)) => prev :: curr :: next.toList
  | some (.delete _ (.unlockPrev prev curr)) => [prev, curr]
  | some (.delete _ (.destroy curr)) => [curr]
  | some (.delete _ (.free curr)) => [curr]
  | some (.delete _ (.passPrev prev curr)) => [prev, curr]
  | some (.delete _ (.unlockEnd prev)) => [prev]
  | _ => []

omit [DecidableEq T] in
theorem Inv.mem_of_pointers (h : Inv g vs x rs) (ha : a ∈ pointers (rs t)) : a ∈ g.nodes ∨ mine (rs t) = some a := by
  have hf := h.facts t
  have hnext : ∀ p c, p ∈ g.nodes → g.nxt p = some c → c ∈ g.nodes := fun p c => h.chain.mem_next
  have hhead := h.head_mem
  generalize rs t = r at ha hf
  rcases r with _ | ⟨v, p⟩ | ⟨v, p⟩
  · simp [pointers] at ha
  · cases p <;>
      simp only [pointers, Facts, mine, List.mem_cons, List.not_mem_nil, or_false, Option.mem_toList] at ha hf ⊢ <;>
      grind
  · cases p <;>
      simp only [pointers, Facts, mine, List.mem_cons, List.not_mem_nil, or_false, Option.mem_toList] at ha hf ⊢ <;>
      grind

omit [DecidableEq T] in
theorem Inv.pointers_live (h : Inv g vs x rs) (ha : a ∈ pointers (rs t)) : x.mem.live a = true :=
  (h.mem_of_pointers ha).elim (h.live a) fun hm => (h.priv t a hm).1

/-! ## Lock discipline -/

omit [DecidableEq T] in
theorem canStep_of_runStep {s : Global T} {c : Alloc (Node T)} (hr : (s.loc t).run = some r)
    (hs : runStep t c s.sh r ≠ none) : CanStep prog s t := by
  refine ⟨c, ?_⟩
  simp only [prog, hr, Option.isSome_map]
  exact Option.isSome_iff_ne_none.2 hs

/-- **Lock discipline.** In every reachable state: if some thread has not run all its operations, some thread can step;
all nodes that an operation in progress points to are allocated; and if no operation is in progress, all nodes from the
head node on are unlocked. -/
theorem lock_discipline {cell : Addr → Node T} {a : Addr} {ops : T → List Op} {as : List (T × Alloc (Node T))}
    {s : Global T} (h : Run prog (start cell a ops) as tr s) :
    ((∃ t, (s.loc t).run ≠ none ∨ (s.loc t).todo ≠ []) → ∃ t, CanStep prog s t) ∧
    (∀ t, ∀ b ∈ pointers (s.loc t).run, s.sh.mem.live b = true) ∧
    ((∀ t, (s.loc t).run = none) → ∃ L, Chain (fun b => (s.sh.node b).next) (some s.sh.head) L ∧
      ∀ b ∈ L, (s.sh.node b).mutex = none) := by
  obtain ⟨g, hi⟩ := run_inv h
  refine ⟨?_, fun t b hb => hi.pointers_live hb, ?_⟩
  · rintro ⟨t, ht⟩
    cases hr : (s.loc t).run with
    | none =>
      -- between two operations: the next one begins
      refine ⟨t, ⟨none, ⟨none, 0, none⟩⟩, ?_⟩
      obtain ⟨op, ops, hops⟩ := List.exists_cons_of_ne_nil (ht.resolve_left fun hne => hne hr)
      simp [prog, hr, hops]
    | some r =>
      obtain ⟨u, q, c, hu, hs⟩ := hi.progress (t := t) (r := r) hr
      exact ⟨u, canStep_of_runStep hu hs⟩
  · intro hidle
    obtain ⟨L, hL, hfree⟩ := idle_nodes h hidle
    exact ⟨L, hL, fun b hb => (hfree b hb).2⟩

/-- a delete that has unlinked its node and an insert that waits for the head node -/
theorem lock_discipline_two :
    ∃ as tr s, Run prog
      (start (fun _ => ⟨none, 0, none⟩) 0 fun t : Fin 2 => if t = 0 then [.insert 5, .delete 5] else [.insert 7])
      as tr s ∧
      pointers (s.loc 0).run = [0, 1] ∧ pointers (s.loc 1).run = [2, 0] ∧ (s.sh.node 0).mutex = some 0 ∧
      (∀ t, ∀ b ∈ pointers (s.loc t).run, s.sh.mem.live b = true) ∧ ∃ t, CanStep prog s t := by
  obtain ⟨s, tr, h, h0, h1, h2⟩ := exec_any_run prog
    (start (fun _ => ⟨none, 0, none⟩) 0 fun t : Fin 2 => if t = 0 then [.insert 5, .delete 5] else [.insert 7])
    (List.replicate 18 (0, answer 1) ++ List.replicate 6 (1, answer 2))
    (fun s _ => pointers (s.loc 0).run = [0, 1] ∧ pointers (s.loc 1).run = [2, 0] ∧ (s.sh.node 0).mutex = some 0)
    (by decide +kernel)
  obtain ⟨hstep, hlive, -⟩ := lock_discipline h
  refine ⟨_, tr, s, h, h0, h1, h2, hlive, hstep ⟨0, .inl ?_⟩⟩
  intro hr
  rw [hr] at h0
  cases h0

end OsPractice.LockCoupling
